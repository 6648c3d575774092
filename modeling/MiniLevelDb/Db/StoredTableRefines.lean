import MiniLevelDb.Db.StoredTableMemory

/-!
# The memtable in memory refines the memtable

Whatever the memory held, and wherever the blocks of the arena lie, the memtable in memory
takes the same steps as the memtable of entries and nodes: its searches stop at the places
of the same nodes, and its insertions keep what the memory stands for.
-/

namespace MiniLevelDb

open Foundation

namespace StoredTable

open SkipList (headPtr kMaxHeight)
open MemTable (Version Entry)

section Reading

variable {memory : Memory (BitVec 8)} {p : Nat}

theorem varint32At_eq {value : BitVec 32}
    (holds : memory.load p (encodeVarint32 value).length = encodeVarint32 value) :
    varint32At memory p = some (value, p + (encodeVarint32 value).length) := by
  have short := length_encodeVarint32_le value
  have whole : memory.load p 5 = encodeVarint32 value ++
      memory.load (p + (encodeVarint32 value).length) (5 - (encodeVarint32 value).length) := by
    have split := memory.load_add p (encodeVarint32 value).length
      (5 - (encodeVarint32 value).length)
    rwa [Nat.add_sub_cancel' short, holds] at split
  simp only [varint32At, whole, getVarint32Ptr_encodeVarint32 _ _ short, Option.bind_eq_bind,
    Option.bind_some, Memory.length_load, Nat.sub_sub_self short]

theorem lengthPrefixedAt_eq {bytes : Slice} (small : bytes.length < 2 ^ 32)
    (size : memory.load p (encodeVarint32 (BitVec.ofNat 32 bytes.length)).length =
      encodeVarint32 (BitVec.ofNat 32 bytes.length))
    (holds : memory.load (p + (encodeVarint32 (BitVec.ofNat 32 bytes.length)).length)
      bytes.length = bytes) :
    lengthPrefixedAt memory p = some bytes := by
  have length : (BitVec.ofNat 32 bytes.length).toNat = bytes.length := by
    rw [BitVec.toNat_ofNat, Nat.mod_eq_of_lt small]
  simp only [lengthPrefixedAt, varint32At_eq size, Option.bind_eq_bind, Option.bind_some, length,
    holds]

/-- The parts of an entry, where they lie. -/
structure Parts (memory : Memory (BitVec 8)) (p : Nat) (version : Version) : Prop where
  size : memory.load p (encodeVarint32 (BitVec.ofNat 32 (version.key.length + 8))).length =
    encodeVarint32 (BitVec.ofNat 32 (version.key.length + 8))
  internalKey : memory.load
      (p + (encodeVarint32 (BitVec.ofNat 32 (version.key.length + 8))).length)
      (version.key.length + 8) = internalKeyOf version.key version.tag
  valueSize : memory.load
      (p + (encodeVarint32 (BitVec.ofNat 32 (version.key.length + 8))).length +
        (version.key.length + 8))
      (encodeVarint32 (BitVec.ofNat 32 version.value.length)).length =
    encodeVarint32 (BitVec.ofNat 32 version.value.length)
  value : memory.load
      (p + (encodeVarint32 (BitVec.ofNat 32 (version.key.length + 8))).length +
        (version.key.length + 8) + (encodeVarint32 (BitVec.ofNat 32 version.value.length)).length)
      version.value.length = version.value

theorem Parts.of_load {version : Version}
    (holds : memory.load p version.bytes.length = version.bytes) : Parts memory p version := by
  rw [version.bytes_eq] at holds
  generalize sized : encodeVarint32 (BitVec.ofNat 32 (version.key.length + 8)) = size at holds
  generalize keyed : internalKeyOf version.key version.tag = internal at holds
  generalize measured : encodeVarint32 (BitVec.ofNat 32 version.value.length) = count at holds
  have length : internal.length = version.key.length + 8 := by
    rw [← keyed, length_internalKeyOf]
  refine ⟨?_, ?_, ?_, ?_⟩
  · rw [sized]
    exact @Memory.load_middle _ _ _ [] _ _ holds
  · rw [sized, ← length, keyed]
    exact Memory.load_middle holds
  · rw [sized, measured, ← length, Nat.add_assoc, ← List.length_append]
    apply Memory.load_middle
    rw [List.append_assoc]
    exact holds
  · rw [sized, measured, ← length, Nat.add_assoc, Nat.add_assoc, ← List.length_append,
      ← List.length_append]
    apply @Memory.load_middle _ _ _ _ _ []
    rw [List.append_assoc, List.append_assoc]
    exact holds

theorem read_inside {version : Version}
    (holds : memory.load p version.bytes.length = version.bytes) :
    (KeyPointer.inside p).read memory = some version.entry.internalKey := by
  have parts := Parts.of_load holds
  have length : (internalKeyOf version.key version.tag).length = version.key.length + 8 :=
    length_internalKeyOf _ _
  rw [MemTable.Version.entry_internalKey]
  apply lengthPrefixedAt_eq
  · rw [length]
    exact version.key_lt
  · rw [length]
    exact parts.size
  · rw [length]
    exact parts.internalKey

/-- Two entries that are read compare as they do. -/
theorem compareKeys_eq {user : Comparator} {left right : KeyPointer} {first second : Entry}
    (leftRead : left.read memory = some first.internalKey)
    (rightRead : right.read memory = some second.internalKey) :
    compareKeys user memory left right = some (Entry.compare user first second) := by
  have compared := Entry.keyComparator_eq user first second
  rw [← Entry.compare_eq] at compared
  simp only [MemTable.keyComparator, first.read.1, second.read.1, Option.bind_eq_bind,
    Option.bind_some] at compared
  simp only [compareKeys, leftRead, rightRead, Option.bind_eq_bind, Option.bind_some, compared]

end Reading

/-! ## Searches -/

/-- The array of predecessors, by the places of the nodes. -/
def places (place : NodePtr → Nat) (prev : Prev) : List (Option Nat) :=
  prev.map (Option.map place)

theorem recordPrev_places (place : NodePtr → Nat) (level : Nat) (x : NodePtr)
    (prev : Option Prev) :
    SkipList.recordPrev level (place x) (prev.map (places place)) =
      (SkipList.recordPrev level x prev).map (Option.map (places place)) := by
  cases prev with
  | none => rfl
  | some prev =>
      simp only [Option.map_some, SkipList.recordPrev, places, List.length_map]
      split
      · rw [Option.map_some, Option.map_some, places, List.map_set, Option.map_some]
      · rfl

theorem raisePrev_places (place : NodePtr → Nat) (maxHeight height : Nat) (prev : Prev) :
    raisePrev (place headPtr) maxHeight height (places place prev) =
      (SkipList.raisePrev maxHeight height prev).map (places place) := by
  have loop : ∀ (levels : List Nat) (prev : Prev),
      levels.foldlM (fun prev level =>
          if level < prev.length then some (prev.set level (some (place headPtr))) else none)
        (places place prev) =
        (levels.foldlM (fun prev level =>
          if level < prev.length then some (prev.set level (some headPtr)) else none) prev).map
            (places place) := by
    intro levels
    induction levels with
    | nil => exact fun prev => rfl
    | cons level later ih =>
        intro prev
        simp only [List.foldlM_cons, places, List.length_map, Option.bind_eq_bind] at ih ⊢
        split
        · rw [Option.bind_some, Option.bind_some, ← ih, List.map_set, Option.map_some]
        · rfl
  unfold raisePrev SkipList.raisePrev
  split
  · exact loop _ prev
  · rfl

namespace Represents

variable {place : NodePtr → Nat} {regions : List Region} {list : MemTable} {table : StoredTable}
  {user : Comparator} {pointer : KeyPointer} {target : Entry}

/-- A node the table points to is not at the null pointer. -/
theorem link_ne_zero (represents : Represents place regions list table)
    (space : table.arena.InSpace) {node : NodePtr} (inside : node < list.nodes.length) :
    link place (some node) ≠ 0 :=
  Nat.ne_of_gt (represents.place_inSpace space inside).1

theorem read_key (represents : Represents place regions list table) {node : NodePtr}
    {entry : Entry} (stored : list.key node = some entry) :
    (KeyPointer.inside (table.key (place node))).read table.memory = some entry.internalKey := by
  obtain ⟨version, rfl, holds⟩ := represents.keys node entry stored
  exact read_inside holds.bytes

theorem keyIsAfterNode (represents : Represents place regions list table)
    (space : table.arena.InSpace) (read : pointer.read table.memory = some target.internalKey)
    {next : Option NodePtr} {answer : Bool}
    (answered : SkipList.keyIsAfterNode (Entry.compare user) list target next = some answer) :
    StoredTable.keyIsAfterNode user table pointer (link place next) = some answer := by
  cases next with
  | none => exact answered
  | some node =>
      obtain ⟨entry, stored, compared⟩ := Option.map_eq_some_iff.mp answered
      have there := represents.link_ne_zero space (lt_size_of_key stored)
      rw [StoredTable.keyIsAfterNode, if_neg there, link,
        compareKeys_eq (represents.read_key stored) read, Option.map_some, compared]

theorem equalsNode (represents : Represents place regions list table)
    (space : table.arena.InSpace) (read : pointer.read table.memory = some target.internalKey)
    {next : Option NodePtr} {answer : Bool}
    (answered : SkipList.equalsNode (Entry.compare user) list target next = some answer) :
    StoredTable.equalsNode user table pointer (link place next) = some answer := by
  cases next with
  | none => exact answered
  | some node =>
      obtain ⟨entry, stored, compared⟩ := Option.map_eq_some_iff.mp answered
      have there := represents.link_ne_zero space (lt_size_of_key stored)
      rw [StoredTable.equalsNode, if_neg there, link,
        compareKeys_eq read (represents.read_key stored), Option.map_some, compared]

/-- The search in memory takes the steps of the search among the nodes. -/
theorem findLoop (represents : Represents place regions list table)
    (space : table.arena.InSpace) (read : pointer.read table.memory = some target.internalKey)
    (rounds : Nat) :
    ∀ {x : NodePtr} {level : Nat} {prev : Option Prev} {found : Option NodePtr}
      {filled : Option Prev},
      SkipList.findLoop (Entry.compare user) list target rounds x level prev =
        some (found, filled) →
      ∀ more, rounds ≤ more →
        StoredTable.findLoop user table pointer more (place x) level (prev.map (places place)) =
          some (link place found, filled.map (places place)) := by
  induction rounds with
  | zero =>
      intro x level prev found filled searched
      cases searched
  | succ rounds ih =>
      intro x level prev found filled searched more enough
      obtain ⟨more, rfl⟩ := Nat.exists_eq_add_of_lt enough
      simp only [SkipList.findLoop, Option.bind_eq_bind, Option.bind_eq_some_iff] at searched
      obtain ⟨next, read_, answer, answered, rest⟩ := searched
      have word := represents.slots level x next read_
      have after := represents.keyIsAfterNode space read answered
      simp only [StoredTable.findLoop, word, after, Option.bind_eq_bind, Option.bind_some]
      cases answer with
      | true =>
          rw [if_pos rfl] at rest ⊢
          obtain ⟨node, rfl, rest⟩ := Option.bind_eq_some_iff.mp rest
          exact ih rest _ (by omega)
      | false =>
          rw [if_neg Bool.false_ne_true] at rest ⊢
          obtain ⟨recorded, kept, rest⟩ := Option.bind_eq_some_iff.mp rest
          rw [recordPrev_places, kept, Option.map_some, Option.bind_some]
          cases level with
          | zero =>
              cases rest
              rfl
          | succ level => exact ih rest _ (by omega)

theorem findGreaterOrEqual (represents : Represents place regions list table)
    (space : table.arena.InSpace) (read : pointer.read table.memory = some target.internalKey)
    {prev filled : Option Prev} {found : Option NodePtr}
    (searched : SkipList.findGreaterOrEqual (Entry.compare user) list target prev =
      some (found, filled)) {rounds : Nat}
    (enough : list.nodes.length + list.maxHeight ≤ rounds) :
    StoredTable.findGreaterOrEqual user table rounds pointer (prev.map (places place)) =
      some (link place found, filled.map (places place)) := by
  rw [StoredTable.findGreaterOrEqual, represents.head, represents.maxHeight]
  exact represents.findLoop space read _ searched rounds enough

/-! ## Insertions -/

theorem lt_height_of_setNext {after : MemTable} {level : Nat} {node : NodePtr}
    {target : Option NodePtr} (written : list.setNext level node target = some after) :
    level < list.height node := by
  unfold SkipList.setNext at written
  rw [SkipList.height]
  cases found : list.nodes[node]? with
  | none =>
      rw [found] at written
      cases written
  | some cell =>
      rw [found] at written
      dsimp only at written
      split at written
      · assumption
      · cases written

/-- One level of the last loop of `Insert`. -/
theorem splice (represents : Represents place regions list table) (space : table.arena.InSpace)
    {prev : Prev} {x : NodePtr} {level : Nat} {after : MemTable}
    (inside : x < list.nodes.length) (spliced : SkipList.splice prev x list level = some after) :
    ∃ last, StoredTable.splice (places place prev) (place x) table level = some last ∧
      Represents place regions after last ∧ last.arena = table.arena ∧
      SkipList.SameShape list after := by
  obtain ⟨before, there, rest⟩ := Option.bind_eq_some_iff.mp spliced
  obtain ⟨successor, read, rest⟩ := Option.bind_eq_some_iff.mp rest
  obtain ⟨middle, filled, joined⟩ := Option.bind_eq_some_iff.mp rest
  have within := lt_height_of_setNext filled
  have behind := lt_height_of_setNext joined
  obtain ⟨_, same, shape, -⟩ := SkipList.setNext_spec within successor
  obtain rfl := Option.some.inj (filled.symm.trans same)
  obtain ⟨_, same, lastShape, -⟩ := SkipList.setNext_spec behind (some x)
  obtain rfl := Option.some.inj (joined.symm.trans same)
  have first := represents.setNext space (fun node same => by
    rw [same] at read
    exact represents.targets level before node read) within filled
  have second := first.setNext space (fun node same => by
    rw [← Option.some.inj same, shape.size]
    exact inside) behind joined
  have place_ : (places place prev)[level]?.join = some (place before) := by
    obtain ⟨entry, listed, rfl⟩ := Option.bind_eq_some_iff.mp there
    rw [places, List.getElem?_map, listed]
    rfl
  have word := represents.slots level before successor read
  refine ⟨_, ?_, second, rfl, shape.trans lastShape⟩
  simp only [StoredTable.splice, place_, word, Option.bind_eq_bind, Option.bind_some, link]

theorem spliceAll {prev : Prev} {x : NodePtr} (levels : List Nat) :
    ∀ {list after : MemTable} {table : StoredTable}, Represents place regions list table →
      table.arena.InSpace → x < list.nodes.length →
      levels.foldlM (SkipList.splice prev x) list = some after →
      ∃ last, levels.foldlM (StoredTable.splice (places place prev) (place x)) table = some last ∧
        Represents place regions after last ∧ last.arena = table.arena ∧
        SkipList.SameShape list after := by
  induction levels with
  | nil =>
      intro list after table represents _ _ spliced
      obtain rfl := Option.some.inj spliced
      exact ⟨table, rfl, represents, rfl, .refl _⟩
  | cons level later ih =>
      intro list after table represents space inside spliced
      rw [List.foldlM_cons] at spliced
      obtain ⟨middle, first, rest⟩ := Option.bind_eq_some_iff.mp spliced
      obtain ⟨next, once, kept, arena, shape⟩ := represents.splice space inside first
      obtain ⟨last, again, keptLast, arenaLast, lastShape⟩ :=
        ih kept (arena ▸ space) (shape.size ▸ inside) rest
      refine ⟨last, ?_, keptLast, arenaLast.trans arena, shape.trans lastShape⟩
      rw [List.foldlM_cons, once]
      exact again

theorem withMaxHeight (represents : Represents place regions list table) (maxHeight : Nat) :
    Represents place regions { list with maxHeight := maxHeight }
      { table with maxHeight := maxHeight } where
  arena := represents.arena
  head := represents.head
  maxHeight := rfl
  tall := represents.tall
  owned := represents.owned
  apart := represents.apart
  slots := represents.slots
  targets := represents.targets
  keys node entry stored := by
    obtain ⟨version, same, stores⟩ := represents.keys node entry stored
    exact ⟨version, same, stores.bytes, stores.owned, stores.apart⟩

/-- `Insert` in memory. -/
theorem insert {heap : List Region → Nat → Nat} (represents : Represents place regions list table)
    (fresh : Arena.Fresh heap) (size : 0 < list.nodes.length) {version : Version}
    {key height : Nat} (stores : Stores place regions list table.memory key version)
    {after : MemTable}
    (inserted : SkipList.insert (Entry.compare user) list version.entry height = some after)
    {rounds : Nat} (enough : list.nodes.length + list.maxHeight ≤ rounds)
    (space : (table.arena.perform heap (nodeRequest height)).2.InSpace) :
    ∃ other owned last, StoredTable.insert heap user table rounds key height = some last ∧
      last.arena = (table.arena.perform heap (nodeRequest height)).2 ∧
      Represents other owned after last ∧ after.nodes.length = list.nodes.length + 1 ∧
      after.maxHeight = max list.maxHeight height ∧ height ≤ kMaxHeight := by
  have spaceBefore := space.of_prefix (Arena.blocks_perform table.arena (nodeRequest height))
  -- the node that is allocated below gets its place now
  generalize allocated : (StoredTable.newNode heap table key height).1 = node
  have same : ∀ old < list.nodes.length,
      Function.update place list.nodes.length node old = place old :=
    fun old inside => Function.update_of_ne (Nat.ne_of_lt inside) _ _
  have placed : Function.update place list.nodes.length node list.nodes.length = node :=
    Function.update_self ..
  have kept := represents.congr size same
  have storesKept := stores.congr same
  generalize Function.update place list.nodes.length node = other at *
  have read : (KeyPointer.inside key).read table.memory = some version.entry.internalKey :=
    read_inside stores.bytes
  simp only [SkipList.insert, Option.bind_eq_bind, Option.bind_eq_some_iff, Prod.exists]
    at inserted
  obtain ⟨found, filled, searched, prev, rfl, equal, compared, rest⟩ := inserted
  have search := kept.findGreaterOrEqual spaceBefore read searched enough
  have compare := kept.equalsNode spaceBefore read compared
  rw [Option.map_some, Option.map_some, places, List.map_replicate, Option.map_none] at search
  cases equal with
  | true => cases rest
  | false =>
      rw [if_neg Bool.false_ne_true] at rest
      by_cases refused : height = 0 ∨ kMaxHeight < height
      · rw [if_pos refused] at rest
        cases rest
      · rw [if_neg refused] at rest
        obtain ⟨ready, raised, linked⟩ := Option.bind_eq_some_iff.mp rest
        have tall : 0 < height := Nat.pos_of_ne_zero fun zero => refused (.inl zero)
        have top : height ≤ kMaxHeight := Nat.le_of_not_lt fun above => refused (.inr above)
        have raised_ := raisePrev_places other list.maxHeight height prev
        rw [raised, Option.map_some, ← kept.head] at raised_
        generalize highest : (if height > list.maxHeight then height else list.maxHeight) =
          maxHeight at linked
        have made := (kept.withMaxHeight maxHeight).newNode fresh spaceBefore
          ⟨storesKept.bytes, storesKept.owned, storesKept.apart⟩ tall top
          (placed.trans allocated.symm)
        have size_ := (SkipList.newNode_spec { list with maxHeight := maxHeight } version.entry
          height).2.1
        obtain ⟨last, spliced, represents_, arena, shape⟩ := made.spliceAll (List.range height)
          space (by rw [size_]; exact Nat.lt_succ_self _) linked
        have node_ : (StoredTable.newNode heap { table with maxHeight := maxHeight } key
            height).1 = other list.nodes.length := allocated.trans placed.symm
        refine ⟨other, _, last, ?_, arena, represents_, shape.size.trans size_, ?_, top⟩
        · simp only [StoredTable.insert, search, compare, raised_, kept.maxHeight, highest,
            if_neg refused, Option.bind_eq_bind, Option.bind_some, Bool.false_eq_true, if_false]
          rw [node_]
          exact spliced
        · rw [shape.maxHeight]
          show maxHeight = max list.maxHeight height
          rw [← highest]
          split
          · omega
          · omega

/-! ## `Add` -/

section Add

variable {heap : List Region → Nat → Nat} {version : Version} {height : Nat}

/-- The bytes of an entry, stored into a region the arena has just handed out. -/
theorem storeLast {arena : Arena} {address : Nat}
    (represents : Represents place regions list table)
    (inv : arena.Inv (regions ++ [⟨address, version.bytes.length⟩])) :
    Represents place (regions ++ [⟨address, version.bytes.length⟩]) list
        { table with arena := arena, memory := table.memory.store address version.bytes } ∧
      Stores place (regions ++ [⟨address, version.bytes.length⟩]) list
        (table.memory.store address version.bytes) address version := by
  have some_ : 0 < version.bytes.length :=
    Nat.lt_of_lt_of_le (Nat.zero_lt_succ 7) (length_bytes_le version)
  have nodeApart : ∀ node < list.nodes.length,
      place node + (nodeRegion (place node) (list.height node)).size ≤ address ∨
        address + version.bytes.length ≤ place node :=
    fun node inside => Region.apart (inv.last_apart _ (represents.owned node inside))
      (Nat.lt_of_lt_of_le (by decide : 0 < sizeofNode) (Nat.le_add_right _ _)) some_
  refine ⟨⟨inv, represents.head, represents.maxHeight, represents.tall, ?_, represents.apart,
    ?_, represents.targets, ?_⟩, Memory.load_store_self, List.mem_concat_self, ?_⟩
  · exact fun node inside => List.mem_append_left _ (represents.owned node inside)
  · intro level node target found
    rw [← represents.slots level node target found]
    apply loadWord_store
    have within := SkipList.lt_height_of_next found
    have here := slot_inside within (place node)
    have apart := nodeApart node (SkipList.lt_size_of_lt_height within)
    unfold nodeRegion at *
    dsimp only at *
    omega
  · intro node entry found
    obtain ⟨stored, same, stores⟩ := represents.keys node entry found
    have key : loadWord (table.memory.store address version.bytes) (place node) =
        table.key (place node) := by
      apply loadWord_store
      have apart := nodeApart node (lt_size_of_key found)
      unfold nodeRegion sizeofNode at apart
      dsimp only at apart
      omega
    refine ⟨stored, same, ?_⟩
    rw [StoredTable.key, key]
    refine ⟨?_, List.mem_append_left _ stores.owned, stores.apart⟩
    rw [← stores.bytes, Memory.length_load]
    apply Memory.load_store_of_apart
    exact Region.apart (inv.last_apart _ stores.owned)
      (Nat.lt_of_lt_of_le (Nat.zero_lt_succ 7) (length_bytes_le stored)) some_
  · intro node inside
    exact (inv.last_apart _ (represents.owned node inside)).symm

theorem length_bytes_lt (version : Version) : version.bytes.length < 2 ^ 63 := by
  have keySize := length_encodeVarint32_le (BitVec.ofNat 32 (version.key.length + 8))
  have valueSize := length_encodeVarint32_le (BitVec.ofNat 32 version.value.length)
  have keySmall := version.key_lt
  have valueSmall := version.value_lt
  rw [version.length_bytes, MemTable.varintLength_length keySmall,
    MemTable.varintLength_length valueSmall]
  omega

/-- The stores of `Add`, each behind the one before, are one store of the entry. -/
theorem stores_eq (memory : Memory (BitVec 8)) (version : Version) (buf : Nat) :
    let keySize := encodeVarint32 (BitVec.ofNat 32 (version.key.length + 8))
    let valueSize := encodeVarint32 (BitVec.ofNat 32 version.value.length)
    ((((memory.store buf keySize).store (buf + keySize.length) version.key).store
        (buf + keySize.length + version.key.length)
        (encodeFixed64 (version.sequence <<< 8 ||| version.type.code))).store
          (buf + keySize.length + version.key.length + 8) valueSize).store
            (buf + keySize.length + version.key.length + 8 + valueSize.length) version.value =
      memory.store buf version.bytes := by
  intro keySize valueSize
  have fixed : (encodeFixed64 (version.sequence <<< 8 ||| version.type.code)).length = 8 :=
    length_encodeFixed64 _
  have next : ∀ (first second : Slice) (place : Nat), place = buf + first.length →
      (memory.store buf first).store place second = memory.store buf (first ++ second) := by
    rintro first second _ rfl
    exact Memory.store_append memory buf first second
  rw [next _ _ _ rfl, next, next, next]
  · rfl
  · simp only [List.length_append, fixed, Nat.add_assoc]
  · simp only [List.length_append, fixed, Nat.add_assoc]
  · simp only [List.length_append, Nat.add_assoc]

/-- `Add` in memory. -/
theorem add (represents : Represents place regions list table) (fresh : Arena.Fresh heap)
    (size : 0 < list.nodes.length) {after : MemTable}
    (added : MemTable.add user list version.sequence version.type version.key version.value height =
      some after) {rounds : Nat} (enough : list.nodes.length + list.maxHeight ≤ rounds)
    (space : (table.arena.performAll heap
      [.allocate version.bytes.length, nodeRequest height]).2.InSpace) :
    ∃ other owned last,
      StoredTable.add heap user table rounds version.sequence version.type version.key
        version.value height = some last ∧
      last.arena = (table.arena.performAll heap
        [.allocate version.bytes.length, nodeRequest height]).2 ∧
      Represents other owned after last ∧ after.nodes.length = list.nodes.length + 1 ∧
      after.maxHeight = max list.maxHeight height ∧ height ≤ kMaxHeight := by
  have some_ : 0 < version.bytes.length :=
    Nat.lt_of_lt_of_le (Nat.zero_lt_succ 7) (length_bytes_le version)
  rw [Version.add_eq] at added
  generalize reserved : table.arena.allocate heap version.bytes.length = allocated
  have performed : table.arena.perform heap (.allocate version.bytes.length) =
      (⟨allocated.1, version.bytes.length⟩, allocated.2) := by
    rw [Arena.perform, reserved]
  have inv := (@Arena.Inv.perform heap table.arena (.allocate version.bytes.length) regions
    represents.arena fresh some_ (length_bytes_lt version)).2
  rw [performed] at inv
  have arenas : (table.arena.performAll heap
      [.allocate version.bytes.length, nodeRequest height]).2 =
        (allocated.2.perform heap (nodeRequest height)).2 := by
    simp only [Arena.performAll, performed]
  rw [arenas] at space ⊢
  obtain ⟨kept, stores⟩ := represents.storeLast inv
  obtain ⟨other, owned, last, inserted, same⟩ := kept.insert fresh size stores added enough space
  refine ⟨other, owned, last, ?_, same⟩
  have whole := stores_eq table.memory version allocated.1
  have fits : allocated.1 + (encodeVarint32 (BitVec.ofNat 32 (version.key.length + 8))).length +
      version.key.length + 8 + (encodeVarint32 (BitVec.ofNat 32 version.value.length)).length +
        version.value.length = allocated.1 + version.bytes.length := by
    rw [version.length_bytes, MemTable.varintLength_length version.key_lt,
      MemTable.varintLength_length version.value_lt]
    omega
  unfold StoredTable.add
  dsimp only
  rw [← version.length_bytes, reserved, if_pos fits, whole]
  exact inserted

end Add

/-! ## `Get` -/

/-- What `Get` reads at the entry of a version. -/
theorem read_parts {memory : Memory (BitVec 8)} {p : Nat} {version : Version}
    (holds : memory.load p version.bytes.length = version.bytes) :
    let keyPtr := p + (encodeVarint32 (BitVec.ofNat 32 (version.key.length + 8))).length
    varint32At memory p = some (BitVec.ofNat 32 (version.key.length + 8), keyPtr) ∧
      memory.load keyPtr version.key.length = version.key ∧
      memory.load (keyPtr + version.key.length) 8 = encodeFixed64 version.tag ∧
      lengthPrefixedAt memory (keyPtr + (version.key.length + 8)) = some version.value := by
  intro keyPtr
  obtain ⟨size, internalKey, valueSize, value⟩ := Parts.of_load holds
  rw [Memory.load_add, internalKeyOf] at internalKey
  obtain ⟨key, tag⟩ := List.append_inj internalKey (Memory.length_load _ _ _)
  exact ⟨varint32At_eq size, key, tag, lengthPrefixedAt_eq version.value_lt valueSize value⟩

/-- `Get` in memory answers as `Get` does. -/
theorem get (represents : Represents place regions list table) (space : table.arena.InSpace)
    {lookup : LookupKey} (decoded : Entry.ofBytes lookup.memtableKey = some target)
    {found : Option NodePtr} {filled : Option Prev}
    (searched : SkipList.findGreaterOrEqual (Entry.compare user) list target none =
      some (found, filled))
    (keyed : ∀ node, found = some node → ∃ entry, list.key node = some entry) {rounds : Nat}
    (enough : list.nodes.length + list.maxHeight ≤ rounds) (value : Slice) (status : Status) :
    StoredTable.get user table rounds lookup value status =
      MemTable.get user list lookup value status := by
  have bytes : target.bytes = lookup.memtableKey := by
    unfold Entry.ofBytes at decoded
    split at decoded
    · rw [← Option.some.inj decoded]
    · cases decoded
  have read : (KeyPointer.outside lookup.memtableKey).read table.memory =
      some target.internalKey := by
    rw [← bytes]
    exact target.read.1
  have search := represents.findGreaterOrEqual space read searched enough
  rw [Option.map_none] at search
  simp only [StoredTable.get, MemTable.get, decoded, searched, search, Option.bind_eq_bind,
    Option.bind_some]
  cases found with
  | none => rfl
  | some node =>
      obtain ⟨entry, stored⟩ := keyed node rfl
      obtain ⟨version, rfl, stores⟩ := represents.keys node entry stored
      obtain ⟨sized, key, tag, stored_⟩ := read_parts stores.bytes
      have there := represents.link_ne_zero space (lt_size_of_key stored)
      have answer := version.getEntry_eq user lookup value status
      have size : (BitVec.ofNat 32 (version.key.length + 8)).toNat = version.key.length + 8 := by
        rw [BitVec.toNat_ofNat, Nat.mod_eq_of_lt version.key_lt]
      have userSize :
          (BitVec.ofNat 32 (version.key.length + 8) - 8).toNat = version.key.length := by
        have small := version.key_lt
        have eight : (8 : BitVec 32).toNat = 8 := rfl
        rw [BitVec.toNat_sub, size, eight]
        omega
      have decodedTag : decodeFixed64 (encodeFixed64 version.tag) = version.tag := by
        have := decodeFixed64_encodeFixed64 version.tag []
        rwa [List.append_nil] at this
      have code : version.tag &&& 0xff = version.type.code :=
        tag_and_255 version.sequence_le version.type
      rw [if_neg there]
      simp only [stored, Option.bind_some, Version.entry_bytes, answer, link, sized, userSize, key,
        size, ← Nat.add_assoc, Nat.add_sub_cancel, tag, decodedTag, code]
      rw [← Nat.add_assoc] at stored_
      by_cases equal : user.compare version.key lookup.userKey = 0
      · rw [if_pos equal, if_pos equal]
        cases version.type with
        | kTypeDeletion => rfl
        | kTypeValue =>
            simp only [stored_]
            rfl
      · rw [if_neg equal, if_neg equal]

end Represents

/-! ## Runs -/

variable {heap : List Region → Nat → Nat} {user : Comparator}

/-- A run of `Add` calls on a new memtable, in memory that holds anything. -/
def addAll (heap : List Region → Nat → Nat) (user : Comparator) (rounds : Nat)
    (memory : Memory (BitVec 8)) (adds : List (Version × Nat)) : Option StoredTable :=
  adds.foldlM (fun table call => add heap user table rounds call.1.sequence call.1.type call.1.key
    call.1.value call.2) (new heap memory)

/-- What a call of `Add` asks the arena for. -/
def addRequests (call : Version × Nat) : List Arena.Request :=
  [.allocate call.1.bytes.length, Represents.nodeRequest call.2]

/-- What the constructor and the calls of `Add` ask the arena for. -/
def requests (adds : List (Version × Nat)) : List Arena.Request :=
  Represents.nodeRequest kMaxHeight :: adds.flatMap addRequests

theorem performAll_append (first second : List Arena.Request) :
    ∀ arena : Arena, (arena.performAll heap (first ++ second)).2 =
      ((arena.performAll heap first).2.performAll heap second).2 := by
  induction first with
  | nil => exact fun arena => rfl
  | cons request later ih => exact fun arena => ih _

theorem Represents.addAll (fresh : Arena.Fresh heap) (adds : List (Version × Nat)) :
    ∀ {place : NodePtr → Nat} {regions : List Region} {list after : MemTable}
      {table : StoredTable} {rounds : Nat}, Represents place regions list table →
      0 < list.nodes.length → list.maxHeight ≤ kMaxHeight →
      adds.foldlM (fun list call => MemTable.add user list call.1.sequence call.1.type call.1.key
        call.1.value call.2) list = some after →
      list.nodes.length + adds.length + kMaxHeight ≤ rounds →
      (table.arena.performAll heap (adds.flatMap addRequests)).2.InSpace →
      ∃ other owned last, adds.foldlM (fun table call => StoredTable.add heap user table rounds
          call.1.sequence call.1.type call.1.key call.1.value call.2) table = some last ∧
        last.arena = (table.arena.performAll heap (adds.flatMap addRequests)).2 ∧
        Represents other owned after last ∧
        after.nodes.length = list.nodes.length + adds.length ∧ after.maxHeight ≤ kMaxHeight := by
  induction adds with
  | nil =>
      intro place regions list after table rounds represents _ low ran _ _
      obtain rfl := Option.some.inj ran
      exact ⟨place, regions, table, rfl, rfl, represents, rfl, low⟩
  | cons call later ih =>
      intro place regions list after table rounds represents size low ran enough space
      rw [List.foldlM_cons] at ran
      obtain ⟨middle, added, rest⟩ := Option.bind_eq_some_iff.mp ran
      rw [List.length_cons] at enough
      rw [List.flatMap_cons, performAll_append] at space ⊢
      have first := space.of_prefix (Arena.blocks_performAll _ _)
      have once_ : list.nodes.length + list.maxHeight ≤ rounds := by omega
      obtain ⟨other, owned, next, once, arena, kept, longer, higher, top⟩ :=
        represents.add fresh size added once_ first
      rw [addRequests, ← arena] at space ⊢
      have later_ : middle.nodes.length + later.length + kMaxHeight ≤ rounds := by omega
      obtain ⟨other, owned, last, again, arenaLast, keptLast, longest, lowLast⟩ :=
        ih kept (by omega) (by omega) rest later_ space
      refine ⟨other, owned, last, ?_, arenaLast, keptLast, ?_, lowLast⟩
      · rw [List.foldlM_cons, once]
        exact again
      · rw [longest, longer, List.length_cons]
        omega

/-- The memtable in memory refines the memtable. Whatever the memory held and wherever in
the address space the arena gets its blocks, a run of `Add` calls of different versions
succeeds, `ApproximateMemoryUsage` counts the blocks it asked for, and every `Get` answers
from the bytes in memory as it does from the entries and nodes of the memtable. -/
theorem addAll_refines (fresh : Arena.Fresh heap) (order : ThreeWay.Lawful user.compare)
    (memory : Memory (BitVec 8)) (adds : List (Version × Nat))
    (heights : ∀ call ∈ adds, 0 < call.2 ∧ call.2 ≤ kMaxHeight)
    (distinct : adds.Pairwise fun left right =>
      (left.1.key, left.1.sequence, left.1.type) ≠
        (right.1.key, right.1.sequence, right.1.type))
    (space : (Arena.new.performAll heap (requests adds)).2.InSpace) {rounds : Nat}
    (enough : adds.length + 1 + kMaxHeight ≤ rounds) :
    ∃ table stored, MemTable.addAll user adds = some table ∧
      addAll heap user rounds memory adds = some stored ∧
      stored.approximateMemoryUsage =
        (Arena.new.performAll heap (requests adds)).2.memoryUsage ∧
      ∀ (key : Slice) (sequence : SequenceNumber) (lookup : LookupKey),
        key.length + 8 < 2 ^ 32 → sequence ≤ kMaxSequenceNumber →
        LookupKey.new key sequence = some lookup → ∀ value status,
        get user stored rounds lookup value status =
          MemTable.get user table lookup value status := by
  obtain ⟨table, rows, versions, ran, layered, -, -⟩ :=
    MemTable.addAll_layered order adds heights distinct
  have spaceNew := space.of_prefix (Arena.blocks_performAll (adds.flatMap addRequests) _)
  obtain ⟨place, region, list, made, represents, arena, size, low⟩ :=
    Represents.new_represents fresh memory spaceNew
  rw [MemTable.addAll, made] at ran
  have spaceAll : ((new heap memory).arena.performAll heap (adds.flatMap addRequests)).2.InSpace :=
    arena ▸ space
  have bound : list.nodes.length + adds.length + kMaxHeight ≤ rounds := by omega
  obtain ⟨other, owned, stored, added, arenaLast, kept, longest, lowLast⟩ :=
    represents.addAll fresh adds (by omega) (by rw [low]; decide) ran bound spaceAll
  refine ⟨table, stored, ?_, added, ?_, ?_⟩
  · rw [MemTable.addAll, made]
    exact ran
  · rw [approximateMemoryUsage, arenaLast, arena]
    rfl
  · intro key sequence lookup small bound new value status
    obtain ⟨same, target, made, -, decoded, -, -⟩ := MemTable.lookup_entry small bound
    obtain rfl := Option.some.inj (new.symm.trans made)
    have entries := Entry.compare_threeWay order.toThreeWay
    obtain ⟨front, back, rfl, below, beyond⟩ :=
      entries.split_increasing layered.increasing target
    obtain ⟨filled, found, -⟩ :=
      @SkipList.findGreaterOrEqual_spec _ _ _ _ _ _ layered below beyond none (by simp)
    apply kept.get (arenaLast ▸ spaceAll) decoded found _ (by omega)
    intro node first
    obtain ⟨row, head, rfl⟩ := Option.map_eq_some_iff.mp first
    exact ⟨row.key,
      (layered.stored row (List.mem_append_right _ (List.mem_of_head? head))).1⟩

/-- A heap that grows upwards. -/
def upwards (blocks : List Region) (_ : Nat) : Nat :=
  8 * ((blocks.map fun block => block.address + block.size).sum + 1)

theorem upwards_fresh : Arena.Fresh upwards := by
  intro blocks bytes
  refine ⟨Nat.mul_mod_right 8 _, fun block member => Set.Ico_disjoint_Ico.mpr ?_⟩
  have below : block.address + block.size ≤
      (blocks.map fun block => block.address + block.size).sum :=
    List.single_le_sum (fun _ _ => Nat.zero_le _) _ (List.mem_map_of_mem member)
  unfold upwards
  dsimp only
  omega

/-- A value and its deletion, in one block of memory that held ones. -/
theorem addAll_refines_two :
    let adds : List (Version × Nat) :=
      [(⟨1, .kTypeValue, [0x61], [0x76], by decide, by decide, by decide⟩, 3),
        (⟨2, .kTypeDeletion, [0x61], [], by decide, by decide, by decide⟩, 1)]
    ∃ table stored, MemTable.addAll MemTable.lexicographic adds = some table ∧
      addAll upwards MemTable.lexicographic 15 (fun _ => 0xff) adds = some stored ∧
      stored.approximateMemoryUsage = 4104 ∧
      ∀ (key : Slice) (sequence : SequenceNumber) (lookup : LookupKey),
        key.length + 8 < 2 ^ 32 → sequence ≤ kMaxSequenceNumber →
        LookupKey.new key sequence = some lookup → ∀ value status,
        get MemTable.lexicographic stored 15 lookup value status =
          MemTable.get MemTable.lexicographic table lookup value status := by
  intro adds
  have arena : (Arena.new.performAll upwards (requests adds)).2 =
      ⟨192, 3912, [⟨8, 4096⟩], 4104⟩ := by rfl
  obtain ⟨table, stored, ran, added, usage, answers⟩ :=
    @addAll_refines upwards MemTable.lexicographic upwards_fresh MemTable.lexicographic_lawful
      (fun _ => 0xff) adds (by decide) (by decide) (by rw [arena]; decide) 15 (by decide)
  rw [arena] at usage
  exact ⟨table, stored, ran, added, usage, answers⟩

end StoredTable

end MiniLevelDb
