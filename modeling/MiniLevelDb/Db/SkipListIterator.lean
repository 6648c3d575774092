import MiniLevelDb.Db.SkipListLayers

/-!
# The iterator of a skip list

An iterator is a node of the list or null. Moving on follows a pointer of the bottom
level; moving back and going to the end search again from `head_`, and a search that
never leaves `head_` makes the iterator null. Nodes are never taken out and keep their
keys, so the iterator stays where it is while others are inserted around it.
-/

namespace MiniLevelDb

open Foundation

namespace SkipList

variable {Key : Type}

section Operations

variable (compare : Key → Key → Int)

/-- The loop of the searches for the last node before a place: right until `stops` holds
of the next pointer, then down. `holds` is what the loop asserts of the node it is at. -/
def lastBeforeLoop (list : SkipList Key) (holds : NodePtr → Option Bool)
    (stops : Option NodePtr → Option Bool) : Nat → NodePtr → Nat → Option NodePtr
  | 0, _, _ => none
  | rounds + 1, x, level => do
      if ← holds x then
        let next ← list.next level x
        if ← stops next then
          match level with
          | 0 => some x
          | level + 1 => lastBeforeLoop list holds stops rounds x level
        else lastBeforeLoop list holds stops rounds (← next) level
      else none

def lastBefore (list : SkipList Key) (holds : NodePtr → Option Bool)
    (stops : Option NodePtr → Option Bool) : Option NodePtr :=
  lastBeforeLoop list holds stops (list.nodes.length + list.maxHeight) headPtr
    (list.maxHeight - 1)

/-- `x == head_ || compare_(x->key, key) < 0`. -/
def standsBefore (list : SkipList Key) (key : Key) (x : NodePtr) : Option Bool :=
  if x = headPtr then some true
  else (list.key x).map fun stored => decide (compare stored key < 0)

/-- `next == nullptr || compare_(next->key, key) >= 0`. -/
def notBefore (list : SkipList Key) (key : Key) : Option NodePtr → Option Bool
  | none => some true
  | some next => (list.key next).map fun stored => decide (compare stored key ≥ 0)

def findLessThan (list : SkipList Key) (key : Key) : Option NodePtr :=
  lastBefore list (standsBefore compare list key) (notBefore compare list key)

/-- `FindLast`, which stops at null and asserts nothing. -/
def findLast (list : SkipList Key) : Option NodePtr :=
  lastBefore list (fun _ => some true) fun next => some next.isNone

end Operations

/-- An iterator, without its pointer to the list. -/
structure Iterator where
  node : Option NodePtr
deriving Repr, DecidableEq

namespace Iterator

/-- The constructor. -/
def new : Iterator := ⟨none⟩

def valid (iterator : Iterator) : Bool := iterator.node.isSome

def key (list : SkipList Key) (iterator : Iterator) : Option Key := do
  let node ← iterator.node
  list.key node

/-- `if (node_ == list_->head_) node_ = nullptr`. -/
def unlessHead (node : NodePtr) : Iterator :=
  if node = headPtr then ⟨none⟩ else ⟨some node⟩

def next (list : SkipList Key) (iterator : Iterator) : Option Iterator := do
  let node ← iterator.node
  (list.next 0 node).map Iterator.mk

def prev (compare : Key → Key → Int) (list : SkipList Key) (iterator : Iterator) :
    Option Iterator := do
  let key ← iterator.key list
  (findLessThan compare list key).map unlessHead

def seek (compare : Key → Key → Int) (list : SkipList Key) (target : Key) : Option Iterator := do
  let (found, _) ← findGreaterOrEqual compare list target none
  some ⟨found⟩

def seekToFirst (list : SkipList Key) : Option Iterator :=
  (list.next 0 headPtr).map Iterator.mk

def seekToLast (list : SkipList Key) : Option Iterator :=
  (findLast list).map unlessHead

end Iterator

variable {compare : Key → Key → Int} {list : SkipList Key}

section Search

variable {front rest back : List (Row Key)} {holds : NodePtr → Option Bool}
  {stops : Option NodePtr → Option Bool}

theorem spot_mem (rows : List (Row Key)) (level : Nat) :
    spot rows level = headPtr ∨ ∃ row ∈ rows, row.node = spot rows level := by
  rcases List.mem_cons.mp (spot_mem_layer rows level) with atHead | member
  · exact .inl atHead
  · obtain ⟨row, shown, same⟩ := List.mem_map.mp member
    exact .inr ⟨row, List.mem_of_mem_filter shown, same⟩

/-- The loop ends at the last of the rows it does not stop at. -/
theorem lastBeforeLoop_spec {rounds level : Nat} {x : NodePtr}
    (layered : Layered compare list (front ++ rest ++ back))
    (atHead : holds headPtr = some true)
    (asserted : ∀ row ∈ front ++ rest, holds row.node = some true)
    (atNull : stops none = some true)
    (passes : ∀ row ∈ rest, stops (some row.node) = some false)
    (stopped : ∀ row ∈ back, stops (some row.node) = some true)
    (standing : ∀ other ≤ level, spot front other = x)
    (within : level < kMaxHeight) (enough : rest.length + level < rounds) :
    lastBeforeLoop list holds stops rounds x level = some (spot (front ++ rest) 0) := by
  induction rounds generalizing front rest x level with
  | zero => omega
  | succ rounds ih =>
      have holding : holds x = some true := by
        rw [← standing level (Nat.le_refl _)]
        rcases spot_mem front level with same | ⟨row, member, same⟩
        · rw [same]
          exact atHead
        · rw [← same]
          exact asserted row (List.mem_append_left _ member)
      unfold lastBeforeLoop
      rcases layered.look_right standing within with
        ⟨hidden, row, later, rfl, tall, next⟩ | ⟨none_shown, next⟩
      · have passing := passes row (by simp)
        have regroup : front ++ (hidden ++ row :: later) =
            (front ++ hidden ++ [row]) ++ later := by simp
        rw [regroup] at layered asserted ⊢
        simp only [holding, next, passing, Option.bind_eq_bind, Option.bind_some, if_true,
          Bool.false_eq_true, if_false]
        refine ih layered asserted (fun other member => passes other (by simp [member]))
          (fun other le => spot_append row (Nat.lt_of_le_of_lt le tall)) within ?_
        simp only [List.length_append, List.length_cons] at enough
        omega
      · have stopping : stops (layer back level).head? = some true := by
          cases visible : (layer back level).head? with
          | none => exact atNull
          | some node =>
              obtain ⟨row, member, rfl⟩ := mem_of_layer_head? visible
              exact stopped row member
        simp only [holding, next, stopping, Option.bind_eq_bind, Option.bind_some, if_true]
        cases level with
        | zero =>
            have place : spot (front ++ rest) 0 = x := by
              rw [spot, layer_append, none_shown, List.append_nil]
              exact standing 0 (Nat.le_refl _)
            rw [place]
        | succ level =>
            exact ih layered asserted passes
              (fun other le => standing other (Nat.le_succ_of_le le)) (by omega) (by omega)

theorem lastBefore_spec (layered : Layered compare list (front ++ back))
    (atHead : holds headPtr = some true)
    (asserted : ∀ row ∈ front, holds row.node = some true)
    (atNull : stops none = some true)
    (passes : ∀ row ∈ front, stops (some row.node) = some false)
    (stopped : ∀ row ∈ back, stops (some row.node) = some true) :
    lastBefore list holds stops = some (spot front 0) := by
  have positive := layered.maxHeight_pos
  have bounded := layered.maxHeight_le
  have room := layered.length_lt
  rw [List.length_append] at room
  exact @lastBeforeLoop_spec _ _ _ [] front back _ _ _ _ _ layered atHead asserted atNull passes
    stopped (fun _ _ => rfl) (by omega) (by omega)

/-- `FindLessThan` returns the last node before the key. -/
theorem findLessThan_spec {key : Key} (layered : Layered compare list (front ++ back))
    (below : ∀ row ∈ front, compare row.key key < 0)
    (beyond : ∀ row ∈ back, ¬ compare row.key key < 0) :
    findLessThan compare list key = some (spot front 0) := by
  have stored : ∀ row ∈ front ++ back, list.key row.node = some row.key :=
    fun row member => (layered.stored row member).1
  refine lastBefore_spec layered rfl ?_ rfl ?_ ?_
  · intro row member
    have listed := List.mem_append_left back member
    have inner := ((layered.present row.node).mp (List.mem_map_of_mem listed)).1
    rw [standsBefore, if_neg inner, stored row listed, Option.map_some,
      decide_eq_true (below row member)]
  · intro row member
    have less := below row member
    rw [notBefore, stored row (List.mem_append_left _ member), Option.map_some,
      decide_eq_false (by omega)]
  · intro row member
    have notLess := beyond row member
    rw [notBefore, stored row (List.mem_append_right _ member), Option.map_some,
      decide_eq_true (by omega)]

theorem findLast_spec {rows : List (Row Key)} (layered : Layered compare list rows) :
    findLast list = some (spot rows 0) := by
  have whole : Layered compare list (rows ++ []) := by rwa [List.append_nil]
  exact lastBefore_spec whole rfl (fun _ _ => rfl) rfl (fun _ _ => rfl) (by simp)

/-- The last node of the bottom level, null if it is `head_`. -/
theorem unlessHead_spot {rows : List (Row Key)} (layered : Layered compare list (front ++ rows)) :
    Iterator.unlessHead (spot front 0) = ⟨front.getLast?.map Row.node⟩ := by
  cases front using List.reverseRecOn with
  | nil => rfl
  | append_singleton front last =>
      have listed : last ∈ front ++ [last] ++ rows := by simp
      have inner := ((layered.present last.node).mp (List.mem_map_of_mem listed)).1
      rw [spot_append last (layered.tall last listed).1, Iterator.unlessHead, if_neg inner]
      simp

end Search

/-- What stands before a row comes before its key, and the rest does not. -/
theorem Layered.beside {front back : List (Row Key)} {row : Row Key} (order : ThreeWay compare)
    (layered : Layered compare list (front ++ row :: back)) :
    (∀ other ∈ front, compare other.key row.key < 0) ∧
      ∀ other ∈ row :: back, ¬ compare other.key row.key < 0 := by
  obtain ⟨-, later, across⟩ := List.pairwise_append.mp layered.increasing
  refine ⟨fun other member => across other member row List.mem_cons_self, ?_⟩
  intro other member
  rcases List.mem_cons.mp member with rfl | behind
  · rw [order.refl]
    decide
  · exact order.le_iff_not_lt.mp
      (Int.le_of_lt ((List.pairwise_cons.mp later).1 other behind))

namespace Iterator

variable {rows front back : List (Row Key)} {row : Row Key}

theorem seekToFirst_eq (layered : Layered compare list rows) :
    seekToFirst list = some ⟨rows.head?.map Row.node⟩ := by
  have first := Chain.read_head (layered.chains 0 (by decide))
  rw [layer_zero fun row member => (layered.tall row member).1, List.head?_map] at first
  rw [seekToFirst, first, Option.map_some]

theorem seekToLast_eq (layered : Layered compare list rows) :
    seekToLast list = some ⟨rows.getLast?.map Row.node⟩ := by
  have whole : Layered compare list (rows ++ []) := by rwa [List.append_nil]
  rw [seekToLast, findLast_spec layered, Option.map_some, unlessHead_spot whole]

theorem seek_eq {target : Key} (layered : Layered compare list (front ++ back))
    (below : ∀ row ∈ front, compare row.key target < 0)
    (beyond : ∀ row ∈ back, ¬ compare row.key target < 0) :
    seek compare list target = some ⟨back.head?.map Row.node⟩ := by
  obtain ⟨after, found, -⟩ :=
    @findGreaterOrEqual_spec _ _ _ _ _ _ layered below beyond none (by simp)
  simp only [seek, found, Option.bind_eq_bind, Option.bind_some]

theorem next_eq (layered : Layered compare list (front ++ row :: back)) :
    next list ⟨some row.node⟩ = some ⟨back.head?.map Row.node⟩ := by
  have listed : row ∈ front ++ row :: back := by simp
  have tall := (layered.tall row listed).1
  have heights : ∀ other ∈ back, 0 < other.height :=
    fun other member => (layered.tall other (by simp [member])).1
  have regroup : front ++ row :: back = (front ++ [row]) ++ back := by simp
  rw [regroup] at layered
  have read := layered.next_spot (by decide : 0 < kMaxHeight)
  rw [spot_append row tall, layer_zero heights, List.head?_map] at read
  simp only [next, read, Option.bind_eq_bind, Option.bind_some, Option.map_some]

theorem key_eq (layered : Layered compare list rows) (member : row ∈ rows) :
    key list ⟨some row.node⟩ = some row.key :=
  (layered.stored row member).1

theorem prev_eq (order : ThreeWay compare)
    (layered : Layered compare list (front ++ row :: back)) :
    prev compare list ⟨some row.node⟩ = some ⟨front.getLast?.map Row.node⟩ := by
  obtain ⟨below, beyond⟩ := layered.beside order
  have at_row : key list ⟨some row.node⟩ = some row.key := key_eq layered (by simp)
  simp only [prev, at_row, findLessThan_spec layered below beyond, Option.bind_eq_bind,
    Option.bind_some, Option.map_some, unlessHead_spot layered]

/-- An iterator at one of the rows, or null. -/
theorem key_at (layered : Layered compare list rows) {found : Option (Row Key)}
    (listed : ∀ row, found = some row → row ∈ rows) :
    key list ⟨found.map Row.node⟩ = found.map Row.key := by
  cases found with
  | none => rfl
  | some row => exact key_eq layered (listed row rfl)

end Iterator

/-- A list and an iterator over it. -/
structure Session (Key : Type) where
  list : SkipList Key
  iterator : Iterator

inductive Op (Key : Type) where
  | insert (key : Key) (height : Nat)
  | seekToFirst
  | seekToLast
  | seek (target : Key)
  | next
  | prev

namespace Op

/-- The keys inserted so far. -/
def inserted : Op Key → List Key → List Key
  | insert key _, keys => key :: keys
  | _, keys => keys

variable (compare : Key → Key → Int)

def apply (session : Session Key) : Op Key → Option (Session Key)
  | insert key height =>
      (session.list.insert compare key height).map fun list => { session with list := list }
  | seekToFirst => (Iterator.seekToFirst session.list).map (Session.mk session.list)
  | seekToLast => (Iterator.seekToLast session.list).map (Session.mk session.list)
  | seek target => (Iterator.seek compare session.list target).map (Session.mk session.list)
  | next => (session.iterator.next session.list).map (Session.mk session.list)
  | prev => (session.iterator.prev compare session.list).map (Session.mk session.list)

/-- What a caller has to see to: new keys, and no step from an iterator that is not
valid. -/
def Allowed (keys : List Key) (iterator : Iterator) : Op Key → Prop
  | insert key height =>
      (∀ other ∈ keys, compare key other ≠ 0) ∧ 0 < height ∧ height ≤ kMaxHeight
  | next => iterator.valid = true
  | prev => iterator.valid = true
  | _ => True

/-- The key an operation leads to from the key `before`, among the keys there then are. -/
def LeadsTo (keys : List Key) (before : Option Key) : Op Key → Option Key → Prop
  | insert _ _, now => now = before
  | seekToFirst, now => ThreeWay.Least compare keys (fun _ => True) now
  | seekToLast, now => ThreeWay.Greatest compare keys (fun _ => True) now
  | seek target, now => ThreeWay.Least compare keys (fun key => compare key target ≥ 0) now
  | next, now => ∃ current, before = some current ∧
      ThreeWay.Least compare keys (fun key => compare key current > 0) now
  | prev, now => ∃ current, before = some current ∧
      ThreeWay.Greatest compare keys (fun key => compare key current < 0) now

variable {compare}

theorem LeadsTo.perm {op : Op Key} {keys others : List Key} {before now : Option Key}
    (leads : op.LeadsTo compare keys before now) (perm : keys.Perm others) :
    op.LeadsTo compare others before now := by
  cases op with
  | insert key height => exact leads
  | seekToFirst => exact ThreeWay.Least.perm leads perm
  | seekToLast => exact ThreeWay.Least.perm leads perm
  | seek target => exact ThreeWay.Least.perm leads perm
  | next =>
      obtain ⟨current, same, least⟩ := leads
      exact ⟨current, same, least.perm perm⟩
  | prev =>
      obtain ⟨current, same, greatest⟩ := leads
      exact ⟨current, same, ThreeWay.Least.perm greatest perm⟩

end Op

/-- What operations lead to, with the keys inserted on the way. -/
inductive Reached (compare : Key → Key → Int) : List Key → Session Key → Prop where
  | start {list : SkipList Key} (made : new = some list) : Reached compare [] ⟨list, Iterator.new⟩
  | step {keys : List Key} {session after : Session Key} (op : Op Key)
      (reached : Reached compare keys session)
      (allowed : op.Allowed compare keys session.iterator)
      (applied : op.apply compare session = some after) :
      Reached compare (op.inserted keys) after

/-- The iterator is at one of the rows or null. -/
structure Tracked (compare : Key → Key → Int) (keys : List Key) (session : Session Key)
    (rows : List (Row Key)) : Prop where
  layered : Layered compare session.list rows
  keys : (rows.map Row.key).Perm keys
  within : ∀ node, session.iterator.node = some node → node ∈ rows.map Row.node

/-- The operation has a result, which is tracked again and is the stated one. -/
def Succeeds (compare : Key → Key → Int) (keys : List Key) (session : Session Key)
    (op : Op Key) : Prop :=
  ∃ after rows, op.apply compare session = some after ∧
    Tracked compare (op.inserted keys) after rows ∧
    op.LeadsTo compare (op.inserted keys) (session.iterator.key session.list)
      (after.iterator.key after.list)

namespace Tracked

variable {keys : List Key} {session : Session Key} {rows front back : List (Row Key)}

/-- A valid iterator is at a node that has a key, not at `head_`. -/
theorem valid_eq (tracked : Tracked compare keys session rows) :
    session.iterator.valid = (session.iterator.key session.list).isSome := by
  cases placed : session.iterator.node with
  | none => simp [Iterator.valid, Iterator.key, placed]
  | some node =>
      obtain ⟨row, member, rfl⟩ := List.mem_map.mp (tracked.within node placed)
      have stored := (tracked.layered.stored row member).1
      simp [Iterator.valid, Iterator.key, placed, stored]

/-- A valid iterator stands between the rows before it and the rows behind it. -/
theorem split (tracked : Tracked compare keys session rows)
    (valid : session.iterator.valid = true) :
    ∃ front row back, rows = front ++ row :: back ∧ session.iterator = ⟨some row.node⟩ := by
  obtain ⟨node, placed⟩ := Option.isSome_iff_exists.mp valid
  obtain ⟨row, member, rfl⟩ := List.mem_map.mp (tracked.within node placed)
  obtain ⟨front, back, rfl⟩ := List.append_of_mem member
  exact ⟨front, row, back, rfl, congrArg Iterator.mk placed⟩

/-- An operation that puts the iterator at one of the rows or makes it null. -/
theorem moveTo (tracked : Tracked compare keys session rows) {op : Op Key}
    {found : Option (Row Key)} (listed : ∀ row, found = some row → row ∈ rows)
    (applied : op.apply compare session = some ⟨session.list, ⟨found.map Row.node⟩⟩)
    (leads : op.LeadsTo compare (rows.map Row.key) (session.iterator.key session.list)
      (found.map Row.key)) (keep : op.inserted keys = keys) :
    Succeeds compare keys session op := by
  refine ⟨_, rows, applied, ?_, ?_⟩
  · rw [keep]
    refine ⟨tracked.layered, tracked.keys, ?_⟩
    intro node placed
    obtain ⟨row, same, rfl⟩ := Option.map_eq_some_iff.mp placed
    exact List.mem_map_of_mem (listed row same)
  · rw [keep, Iterator.key_at tracked.layered listed]
    exact leads.perm tracked.keys

/-- An insertion leaves the iterator at its node, and the old rows keep their keys. -/
theorem insert_succeeds (order : ThreeWay compare) (tracked : Tracked compare keys session rows)
    {key : Key} {height : Nat} (fresh : ∀ other ∈ keys, compare key other ≠ 0)
    (tall : 0 < height ∧ height ≤ kMaxHeight) :
    Succeeds compare keys session (.insert key height) := by
  have layered := tracked.layered
  obtain ⟨front, back, rfl, below, beyond⟩ := order.split_increasing layered.increasing key
  obtain ⟨after, inserted, relayered⟩ := insert_spec order layered below beyond
    (fun row member => fresh row.key (tracked.keys.mem_iff.mp (List.mem_map_of_mem member))) tall
  have kept : ∀ row ∈ front ++ back,
      row ∈ front ++ ⟨session.list.nodes.length, key, height⟩ :: back := by
    intro row member
    simp only [List.mem_append, List.mem_cons] at member ⊢
    exact member.imp_right .inr
  refine ⟨⟨after, session.iterator⟩, _, ?_, ⟨relayered, ?_, ?_⟩, ?_⟩
  · rw [Op.apply, inserted, Option.map_some]
  · rw [List.map_append, List.map_cons]
    refine List.perm_middle.trans (List.Perm.cons _ ?_)
    rw [← List.map_append]
    exact tracked.keys
  · intro node placed
    obtain ⟨row, member, rfl⟩ := List.mem_map.mp (tracked.within node placed)
    exact List.mem_map_of_mem (kept row member)
  · show Iterator.key after session.iterator = Iterator.key session.list session.iterator
    cases placed : session.iterator.node with
    | none => simp [Iterator.key, placed]
    | some node =>
        obtain ⟨row, member, rfl⟩ := List.mem_map.mp (tracked.within node placed)
        simp only [Iterator.key, placed, Option.bind_eq_bind, Option.bind_some,
          (relayered.stored row (kept row member)).1, (layered.stored row member).1]

theorem seek_succeeds (order : ThreeWay compare) (tracked : Tracked compare keys session rows)
    (target : Key) : Succeeds compare keys session (.seek target) := by
  have layered := tracked.layered
  obtain ⟨front, back, rfl, below, beyond⟩ := order.split_increasing layered.increasing target
  refine tracked.moveTo
    (fun row first => List.mem_append_right _ (List.mem_of_head? first)) ?_ ?_ rfl
  · rw [Op.apply, Iterator.seek_eq layered below beyond, Option.map_some]
  · refine order.least_of_split layered.increasing ?_ ?_
    · intro row member
      exact Int.not_le.mpr (below row member)
    · intro row member
      exact Int.not_lt.mp (beyond row member)

theorem next_succeeds (order : ThreeWay compare) (tracked : Tracked compare keys session rows)
    (valid : session.iterator.valid = true) : Succeeds compare keys session .next := by
  obtain ⟨front, row, back, rfl, standing⟩ := tracked.split valid
  have layered := tracked.layered
  have at_row : session.iterator.key session.list = some row.key :=
    standing ▸ Iterator.key_eq layered (by simp)
  refine tracked.moveTo (fun other (first : back.head? = some other) => by
    simp [List.mem_of_head? first]) ?_ ⟨row.key, at_row, ?_⟩ rfl
  · rw [Op.apply, standing, Iterator.next_eq layered, Option.map_some]
  · have increasing := layered.increasing
    have regroup : front ++ row :: back = (front ++ [row]) ++ back := by simp
    rw [regroup] at increasing ⊢
    obtain ⟨ordered, -, across⟩ := List.pairwise_append.mp increasing
    refine order.least_of_split increasing ?_ ?_
    · intro other member
      rcases List.mem_append.mp member with before | same
      · have := (List.pairwise_append.mp ordered).2.2 other before row (by simp)
        omega
      · rw [List.mem_singleton.mp same, order.refl]
        decide
    · intro other member
      exact (order.swap _ _).mp (across row (by simp) other member)

theorem prev_succeeds (order : ThreeWay compare) (tracked : Tracked compare keys session rows)
    (valid : session.iterator.valid = true) : Succeeds compare keys session .prev := by
  obtain ⟨front, row, back, rfl, standing⟩ := tracked.split valid
  have layered := tracked.layered
  obtain ⟨below, beyond⟩ := layered.beside order
  have at_row : session.iterator.key session.list = some row.key :=
    standing ▸ Iterator.key_eq layered (by simp)
  refine tracked.moveTo (fun other (last : front.getLast? = some other) => by
    simp [List.mem_of_getLast? last]) ?_ ⟨row.key, at_row, ?_⟩ rfl
  · rw [Op.apply, standing, Iterator.prev_eq order layered, Option.map_some]
  · exact order.greatest_of_split layered.increasing below beyond

/-- Every operation that is allowed succeeds. -/
theorem step (order : ThreeWay compare) (tracked : Tracked compare keys session rows)
    {op : Op Key} (allowed : op.Allowed compare keys session.iterator) :
    Succeeds compare keys session op := by
  have layered := tracked.layered
  cases op with
  | insert key height => exact tracked.insert_succeeds order allowed.1 allowed.2
  | seekToFirst =>
      refine tracked.moveTo (fun row first => List.mem_of_head? first) ?_ ?_ rfl
      · rw [Op.apply, Iterator.seekToFirst_eq layered, Option.map_some]
      · exact @ThreeWay.least_of_split _ _ _ order [] rows _ _ layered.increasing (by simp)
          (fun _ _ => trivial)
  | seekToLast =>
      have whole := layered.increasing
      refine tracked.moveTo (fun row last => List.mem_of_getLast? last) ?_ ?_ rfl
      · rw [Op.apply, Iterator.seekToLast_eq layered, Option.map_some]
      · rw [← List.append_nil rows] at whole
        have greatest := @ThreeWay.greatest_of_split _ _ _ order rows [] _ (fun _ => True) whole
          (fun _ _ => trivial) (by simp)
        rwa [List.append_nil] at greatest
  | seek target => exact tracked.seek_succeeds order target
  | next => exact tracked.next_succeeds order allowed
  | prev => exact tracked.prev_succeeds order allowed

end Tracked

theorem reached_tracked (order : ThreeWay compare) {keys : List Key} {session : Session Key}
    (reached : Reached compare keys session) : ∃ rows, Tracked compare keys session rows := by
  induction reached with
  | start made =>
      obtain ⟨list, same, layered⟩ := @new_layered Key compare
      obtain rfl : _ = list := Option.some.inj (made.symm.trans same)
      exact ⟨[], layered, List.Perm.nil, by simp [Iterator.new]⟩
  | step op _ allowed applied ih =>
      obtain ⟨rows, tracked⟩ := ih
      obtain ⟨after, rows, same, stepped, -⟩ := tracked.step order allowed
      obtain rfl := Option.some.inj (applied.symm.trans same)
      exact ⟨rows, stepped⟩

/-- The iterator is a cursor over the keys inserted so far, in order. Whatever was done
before, an operation that is allowed has a result, the iterator is then valid exactly if
there is the key the operation leads to, and it is at that key. -/
theorem reached_leadsTo (order : ThreeWay compare) {keys : List Key} {session : Session Key}
    (reached : Reached compare keys session) (op : Op Key)
    (allowed : op.Allowed compare keys session.iterator) :
    ∃ after, op.apply compare session = some after ∧
      Reached compare (op.inserted keys) after ∧
      after.iterator.valid = (after.iterator.key after.list).isSome ∧
      op.LeadsTo compare (op.inserted keys) (session.iterator.key session.list)
        (after.iterator.key after.list) := by
  obtain ⟨rows, tracked⟩ := reached_tracked order reached
  obtain ⟨after, rows, applied, stepped, leads⟩ := tracked.step order allowed
  exact ⟨after, applied, .step op reached allowed applied, stepped.valid_eq, leads⟩

/-- A key inserted right behind the iterator is where it moves to. -/
theorem reached_leadsTo_between :
    ∃ session after, Reached (fun left right : Int => left - right) [4, 3, 5] session ∧
      session.iterator.key session.list = some 3 ∧
      Op.next.apply (fun left right : Int => left - right) session = some after ∧
      after.iterator.key after.list = some 4 := by
  have order : ThreeWay fun left right : Int => left - right :=
    ⟨by intros; omega, by intros; omega⟩
  obtain ⟨list, made, -⟩ := @new_layered Int fun left right => left - right
  obtain ⟨one, -, reached, -, -⟩ :=
    reached_leadsTo order (.start made) (.insert 5 2) ⟨by simp, by decide⟩
  obtain ⟨two, -, reached, -, -⟩ :=
    reached_leadsTo order reached (.insert 3 12) ⟨by simp [Op.inserted], by decide⟩
  obtain ⟨first, -, reached, -, least⟩ := reached_leadsTo order reached .seekToFirst trivial
  have at_three : first.iterator.key first.list = some 3 := by
    generalize first.iterator.key first.list = now at least
    cases now with
    | none => exact absurd trivial (least 3 (by simp [Op.inserted]))
    | some key =>
        obtain ⟨member, -, le⟩ := least
        have : key - 3 ≤ 0 := le 3 (by simp [Op.inserted]) trivial
        simp only [Op.inserted, List.mem_cons, List.not_mem_nil, or_false] at member
        obtain rfl : key = 3 := by omega
        rfl
  obtain ⟨session, -, reached, valid, same⟩ :=
    reached_leadsTo order reached (.insert 4 1) ⟨by simp [Op.inserted], by decide⟩
  have kept : session.iterator.key session.list = some 3 := Eq.trans same at_three
  obtain ⟨after, applied, -, -, current, at_current, least⟩ :=
    reached_leadsTo order reached .next (valid.trans (by rw [kept]; rfl))
  obtain rfl : 3 = current := Option.some.inj (kept.symm.trans at_current)
  refine ⟨session, after, reached, kept, applied, ?_⟩
  generalize after.iterator.key after.list = now at least
  cases now with
  | none => exact absurd (by decide) (least 4 (by simp [Op.inserted]))
  | some key =>
      obtain ⟨member, above, le⟩ := least
      have : key - 4 ≤ 0 := le 4 (by simp [Op.inserted]) (by decide)
      have : key - 3 > 0 := above
      simp only [Op.inserted, List.mem_cons, List.not_mem_nil, or_false] at member
      obtain rfl : key = 4 := by omega
      rfl

end SkipList

end MiniLevelDb
