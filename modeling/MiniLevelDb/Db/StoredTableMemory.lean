import MiniLevelDb.Db.MemTableVersions
import MiniLevelDb.Db.StoredTable

/-!
# What the memory of a memtable stands for

Each node of the skip list has a place in memory, and each of its keys an entry. The regions
the arena handed out for them are apart, so a store to one node changes neither another node
nor an entry.
-/

namespace MiniLevelDb

open Foundation

namespace Arena

/-- The blocks lie in the address space, and none at the null pointer. -/
def InSpace (arena : Arena) : Prop :=
  ∀ block ∈ arena.blocks, 0 < block.address ∧ block.address + block.size ≤ 2 ^ 64

instance (arena : Arena) : Decidable arena.InSpace :=
  inferInstanceAs (Decidable (∀ block ∈ arena.blocks, _))

variable {heap : List Region → Nat → Nat} {arena : Arena} {regions : List Region}
  {region : Region}

theorem Inv.inSpace (inv : arena.Inv regions) (space : arena.InSpace) (member : region ∈ regions)
    (some_ : 0 < region.size) :
    0 < region.address ∧ region.address + region.size ≤ 2 ^ 64 := by
  obtain ⟨bytes, listed, inside⟩ := inv.carved.inside region.bytes (List.mem_map_of_mem member)
  obtain ⟨block, held, rfl⟩ := List.mem_map.mp listed
  obtain ⟨positive, bounded⟩ := space block held
  have nonempty : region.address < region.address + region.size := Nat.lt_add_of_pos_right some_
  obtain ⟨lower, upper⟩ := (Set.Ico_subset_Ico_iff nonempty).mp inside
  exact ⟨Nat.lt_of_lt_of_le positive lower, upper.trans bounded⟩

/-- The last region handed out is apart from the ones before. -/
theorem Inv.last_apart (inv : arena.Inv (regions ++ [region])) :
    ∀ other ∈ regions, Disjoint other.bytes region.bytes := by
  intro other member
  have pairwise := inv.carved.pairwise
  rw [List.map_append, List.map_singleton, List.pairwise_append] at pairwise
  exact pairwise.2.2 _ (List.mem_map_of_mem member) _ (List.mem_singleton_self _)

theorem blocks_allocateFallback (arena : Arena) (bytes : Nat) :
    arena.blocks <+: (arena.allocateFallback heap bytes).2.blocks := by
  unfold allocateFallback
  split
  · exact List.prefix_append _ _
  · exact List.prefix_append _ _

/-- Blocks stay where they are. -/
theorem blocks_perform (arena : Arena) (request : Request) :
    arena.blocks <+: (arena.perform heap request).2.blocks := by
  cases request with
  | allocate bytes =>
      change arena.blocks <+: (arena.allocate heap bytes).2.blocks
      unfold allocate
      split
      · exact List.prefix_rfl
      · exact blocks_allocateFallback arena bytes
  | allocateAligned bytes =>
      change arena.blocks <+: (arena.allocateAligned heap bytes).2.blocks
      unfold allocateAligned
      dsimp only
      split
      · exact List.prefix_rfl
      · exact blocks_allocateFallback arena bytes

theorem blocks_performAll (requests : List Request) :
    ∀ arena : Arena, arena.blocks <+: (arena.performAll heap requests).2.blocks := by
  induction requests with
  | nil => exact fun _ => List.prefix_rfl
  | cons request later ih => exact fun arena => (blocks_perform arena request).trans (ih _)

theorem InSpace.of_prefix {before after : Arena} (space : after.InSpace)
    (kept : before.blocks <+: after.blocks) : before.InSpace :=
  fun block member => space block (kept.subset member)

end Arena

/-- Regions that share no byte lie one before the other. -/
theorem Region.apart {left right : Region} (disjoint : Disjoint left.bytes right.bytes)
    (leftSome : 0 < left.size) (rightSome : 0 < right.size) :
    left.address + left.size ≤ right.address ∨ right.address + right.size ≤ left.address := by
  have ordered := Set.Ico_disjoint_Ico.mp disjoint
  omega

namespace StoredTable

open SkipList (headPtr kMaxHeight)
open MemTable (Version Entry)

section Words

variable {memory : Memory (BitVec 8)} {address place value : Nat} {data : Slice}

theorem loadWord_storeWord (small : value < 2 ^ 64) :
    loadWord (storeWord memory address value) address = value := by
  have loaded := @Memory.load_store_self _ memory address (encodeFixed64 (BitVec.ofNat 64 value))
  rw [length_encodeFixed64] at loaded
  have decoded := decodeFixed64_encodeFixed64 (BitVec.ofNat 64 value) []
  rw [List.append_nil] at decoded
  rw [loadWord, storeWord, loaded, decoded, BitVec.toNat_ofNat, Nat.mod_eq_of_lt small]

theorem loadWord_store (apart : place + 8 ≤ address ∨ address + data.length ≤ place) :
    loadWord (memory.store address data) place = loadWord memory place := by
  rw [loadWord, loadWord, Memory.load_store_of_apart apart]

end Words

/-- The bytes of a node with `height` slots. -/
def nodeRegion (node height : Nat) : Region :=
  ⟨node, sizeofNode + Arena.pointerSize * (height - 1)⟩

/-- The pointer to a node, by the places of the nodes. -/
def link (place : NodePtr → Nat) : Option NodePtr → Nat
  | none => 0
  | some node => place node

/-- The entry of a version lies at `address`, apart from the nodes. -/
structure Stores (place : NodePtr → Nat) (regions : List Region) (list : MemTable)
    (memory : Memory (BitVec 8)) (address : Nat) (version : Version) : Prop where
  bytes : memory.load address version.bytes.length = version.bytes
  owned : ⟨address, version.bytes.length⟩ ∈ regions
  apart : ∀ node < list.nodes.length,
    Disjoint (Region.mk address version.bytes.length).bytes
      (nodeRegion (place node) (list.height node)).bytes

/-- The memory of `table` holds the skip list, with its nodes at their places. -/
structure Represents (place : NodePtr → Nat) (regions : List Region) (list : MemTable)
    (table : StoredTable) : Prop where
  arena : table.arena.Inv regions
  head : table.head = place headPtr
  maxHeight : table.maxHeight = list.maxHeight
  tall : ∀ node < list.nodes.length, 0 < list.height node
  owned : ∀ node < list.nodes.length, nodeRegion (place node) (list.height node) ∈ regions
  apart : ∀ left < list.nodes.length, ∀ right < list.nodes.length, left ≠ right →
    Disjoint (nodeRegion (place left) (list.height left)).bytes
      (nodeRegion (place right) (list.height right)).bytes
  slots : ∀ level node target, list.next level node = some target →
    table.next level (place node) = link place target
  targets : ∀ level node target, list.next level node = some (some target) →
    target < list.nodes.length
  keys : ∀ node entry, list.key node = some entry → ∃ version : Version,
    entry = version.entry ∧
      Stores place regions list table.memory (table.key (place node)) version

theorem length_bytes_le (version : Version) : 8 ≤ version.bytes.length := by
  rw [version.length_bytes]
  omega

theorem lt_size_of_key {list : MemTable} {node : NodePtr} {entry : Entry}
    (stored : list.key node = some entry) : node < list.nodes.length := by
  by_contra outside
  rw [SkipList.key, List.getElem?_eq_none (Nat.le_of_not_lt outside)] at stored
  cases stored

theorem Stores.congr {place other : NodePtr → Nat} {regions : List Region} {list : MemTable}
    {memory : Memory (BitVec 8)} {address : Nat} {version : Version}
    (stores : Stores place regions list memory address version)
    (same : ∀ node < list.nodes.length, other node = place node) :
    Stores other regions list memory address version := by
  refine ⟨stores.bytes, stores.owned, fun node inside => ?_⟩
  rw [same node inside]
  exact stores.apart node inside

namespace Represents

variable {place : NodePtr → Nat} {regions : List Region} {list after : MemTable}
  {table : StoredTable} {node : NodePtr} {level : Nat}

/-- Where a node lies. -/
theorem place_inSpace (represents : Represents place regions list table)
    (space : table.arena.InSpace) (inside : node < list.nodes.length) :
    0 < place node ∧ place node < 2 ^ 64 := by
  have bounds := represents.arena.inSpace space (represents.owned node inside)
    (Nat.lt_of_lt_of_le (by decide : 0 < sizeofNode) (Nat.le_add_right _ _))
  have size : 0 < (nodeRegion (place node) (list.height node)).size :=
    Nat.lt_of_lt_of_le (by decide : 0 < sizeofNode) (Nat.le_add_right _ _)
  exact ⟨bounds.1, Nat.lt_of_lt_of_le (Nat.lt_add_of_pos_right size) bounds.2⟩

theorem link_lt (represents : Represents place regions list table)
    (space : table.arena.InSpace) {target : Option NodePtr}
    (known : ∀ node, target = some node → node < list.nodes.length) :
    link place target < 2 ^ 64 := by
  cases target with
  | none => exact Nat.two_pow_pos 64
  | some node => exact (represents.place_inSpace space (known node rfl)).2

/-- Only the places of the nodes that are there matter. -/
theorem congr {other : NodePtr → Nat} (represents : Represents place regions list table)
    (size : 0 < list.nodes.length) (same : ∀ node < list.nodes.length, other node = place node) :
    Represents other regions list table where
  arena := represents.arena
  head := by
    rw [same headPtr size]
    exact represents.head
  maxHeight := represents.maxHeight
  tall := represents.tall
  owned node inside := by
    rw [same node inside]
    exact represents.owned node inside
  apart left leftIn right rightIn differ := by
    rw [same left leftIn, same right rightIn]
    exact represents.apart left leftIn right rightIn differ
  slots level node target read := by
    have inside := SkipList.lt_size_of_lt_height (SkipList.lt_height_of_next read)
    rw [same node inside, represents.slots level node target read]
    cases target with
    | none => rfl
    | some target => exact (same target (represents.targets level node target read)).symm
  targets := represents.targets
  keys node entry stored := by
    obtain ⟨version, entry_, holds⟩ := represents.keys node entry stored
    rw [same node (lt_size_of_key stored)]
    exact ⟨version, entry_, holds.congr same⟩

/-- A slot lies in its node, behind the key. -/
theorem slot_inside {height : Nat} (within : level < height) (node : Nat) :
    node + 8 ≤ slot node level ∧
      slot node level + 8 ≤ (nodeRegion node height).address + (nodeRegion node height).size := by
  unfold slot nodeRegion sizeofNode Arena.pointerSize
  dsimp only
  omega

/-- Nodes that differ lie one before the other. -/
theorem apart_nodes (represents : Represents place regions list table) {left right : NodePtr}
    (leftIn : left < list.nodes.length) (rightIn : right < list.nodes.length)
    (differ : left ≠ right) :
    place left + (nodeRegion (place left) (list.height left)).size ≤ place right ∨
      place right + (nodeRegion (place right) (list.height right)).size ≤ place left :=
  Region.apart (represents.apart left leftIn right rightIn differ)
    (Nat.lt_of_lt_of_le (by decide : 0 < sizeofNode) (Nat.le_add_right _ _))
    (Nat.lt_of_lt_of_le (by decide : 0 < sizeofNode) (Nat.le_add_right _ _))

/-- A store to a slot of a node. -/
theorem setNext (represents : Represents place regions list table) (space : table.arena.InSpace)
    {target : Option NodePtr} (known : ∀ node, target = some node → node < list.nodes.length)
    (within : level < list.height node)
    (written : list.setNext level node target = some after) :
    Represents place regions after (table.setNext level (place node) (link place target)) := by
  obtain ⟨same, set_, shape, slots⟩ := SkipList.setNext_spec within target
  obtain rfl := Option.some.inj (written.symm.trans set_)
  have inside := SkipList.lt_size_of_lt_height within
  have here := slot_inside within (place node)
  have small := represents.link_lt space known
  refine ⟨represents.arena, represents.head, ?_, ?_, ?_, ?_, ?_, ?_, ?_⟩
  · exact represents.maxHeight.trans shape.maxHeight.symm
  · rw [shape.size, shape.height]
    exact represents.tall
  · rw [shape.size, shape.height]
    exact represents.owned
  · rw [shape.size, shape.height]
    exact represents.apart
  · intro otherLevel other read found
    rw [slots] at found
    by_cases here_ : otherLevel = level ∧ other = node
    · rw [if_pos here_] at found
      obtain ⟨rfl, rfl⟩ := here_
      obtain rfl := Option.some.inj found
      exact loadWord_storeWord small
    · rw [if_neg here_] at found
      rw [← represents.slots otherLevel other read found]
      apply loadWord_store
      rw [length_encodeFixed64]
      by_cases sameNode : other = node
      · subst sameNode
        have levels : otherLevel ≠ level := fun equal => here_ ⟨equal, rfl⟩
        unfold slot
        omega
      · have otherWithin := SkipList.lt_height_of_next found
        have there := slot_inside otherWithin (place other)
        have apart := represents.apart_nodes (SkipList.lt_size_of_lt_height otherWithin) inside
          sameNode
        unfold nodeRegion at *
        dsimp only at *
        omega
  · intro otherLevel other read found
    rw [shape.size]
    rw [slots] at found
    by_cases here_ : otherLevel = level ∧ other = node
    · rw [if_pos here_] at found
      exact known read (Option.some.inj found)
    · rw [if_neg here_] at found
      exact represents.targets otherLevel other read found
  · intro other entry stored
    rw [shape.key] at stored
    obtain ⟨version, entry_, holds⟩ := represents.keys other entry stored
    have otherIn := lt_size_of_key stored
    have key : (table.setNext level (place node) (link place target)).key (place other) =
        table.key (place other) := by
      apply loadWord_store
      rw [length_encodeFixed64]
      by_cases sameNode : other = node
      · subst sameNode
        exact .inl here.1
      · have apart := represents.apart_nodes otherIn inside sameNode
        have positive := represents.tall other otherIn
        have there := slot_inside positive (place other)
        unfold nodeRegion at *
        dsimp only at *
        omega
    rw [key]
    refine ⟨version, entry_, ?_, holds.owned, ?_⟩
    · rw [← holds.bytes]
      rw [Memory.length_load]
      apply Memory.load_store_of_apart
      have apart := Region.apart (holds.apart node inside)
        (Nat.lt_of_lt_of_le (Nat.zero_lt_succ 7) (length_bytes_le version))
        (Nat.lt_of_lt_of_le (by decide : 0 < sizeofNode) (Nat.le_add_right _ _))
      rw [length_encodeFixed64]
      unfold nodeRegion at *
      dsimp only at *
      omega
    · rw [shape.size, shape.height]
      exact holds.apart

section Allocation

variable {heap : List Region → Nat → Nat} {key height : Nat}

/-- What `NewNode` asks the arena for. -/
def nodeRequest (height : Nat) : Arena.Request :=
  .allocateAligned (sizeofNode + Arena.pointerSize * (height - 1))

/-- The arena serves a request for a node. -/
theorem allocates {arena : Arena} (inv : arena.Inv regions) (fresh : Arena.Fresh heap)
    (top : height ≤ kMaxHeight) :
    let allocated := arena.allocateAligned heap (sizeofNode + Arena.pointerSize * (height - 1))
    allocated.2.Inv (regions ++ [nodeRegion allocated.1 height]) := by
  have sizes : 0 < (nodeRequest height).bytes ∧ (nodeRequest height).bytes < 2 ^ 63 := by
    unfold nodeRequest Arena.Request.bytes sizeofNode Arena.pointerSize kMaxHeight at *
    dsimp only
    omega
  exact (inv.perform fresh sizes.1 sizes.2).2

theorem newNode_fst (table : StoredTable) (key height : Nat) :
    (StoredTable.newNode heap table key height).1 =
      (table.arena.allocateAligned heap (sizeofNode + Arena.pointerSize * (height - 1))).1 := rfl

theorem newNode_arena (table : StoredTable) (key height : Nat) :
    (StoredTable.newNode heap table key height).2.arena =
      (table.arena.perform heap (nodeRequest height)).2 := rfl

/-- One node is added to the list, behind the others. -/
structure Grown (list after : MemTable) (entry : Entry) (height : Nat) : Prop where
  next : after.next = list.next
  size : after.nodes.length = list.nodes.length + 1
  maxHeight : after.maxHeight = list.maxHeight
  key : after.key list.nodes.length = some entry
  height : after.height list.nodes.length = height
  old : ∀ node < list.nodes.length,
    after.key node = list.key node ∧ after.height node = list.height node

theorem grown_newNode (list : MemTable) (entry : Entry) (height : Nat) :
    Grown list (SkipList.newNode list (some entry) height).2 entry height := by
  obtain ⟨next, size, newKey, newHeight, old⟩ := SkipList.newNode_spec list entry height
  exact ⟨next, size, rfl, newKey, newHeight, old⟩

/-- A node is one of the old ones or the new one. -/
theorem Grown.split {list after : MemTable} {entry : Entry} (grown : Grown list after entry height)
    {node : NodePtr} (inside : node < after.nodes.length) :
    node < list.nodes.length ∨ node = list.nodes.length := by
  rw [grown.size] at inside
  exact Nat.lt_succ_iff_lt_or_eq.mp inside

section NewNode

variable {after : MemTable} {version : Version} {arena : Arena}

/-- Key and first slot of a new node are apart from everything that was allocated before. -/
theorem new_apart {address : Nat} (inv : arena.Inv (regions ++ [nodeRegion address height]))
    {other : Region} (member : other ∈ regions) (some_ : 0 < other.size) :
    other.address + other.size ≤ address ∨ address + 16 ≤ other.address := by
  have apart := Region.apart (inv.last_apart other member) some_
    (Nat.lt_of_lt_of_le (by decide : 0 < sizeofNode) (Nat.le_add_right _ _))
  unfold nodeRegion sizeofNode at apart
  dsimp only at apart
  omega

theorem new_apart_node (represents : Represents place regions list table)
    (inv : arena.Inv (regions ++ [nodeRegion (place list.nodes.length) height])) {node : NodePtr}
    (inside : node < list.nodes.length) :
    place node + (nodeRegion (place node) (list.height node)).size ≤ place list.nodes.length ∨
      place list.nodes.length + 16 ≤ place node :=
  new_apart inv (represents.owned node inside)
    (Nat.lt_of_lt_of_le (by decide : 0 < sizeofNode) (Nat.le_add_right _ _))

/-- Every node has a region of its own. -/
theorem owned_newNode (represents : Represents place regions list table)
    (grown : Grown list after version.entry height) (node : NodePtr)
    (inside : node < after.nodes.length) :
    nodeRegion (place node) (after.height node) ∈
      regions ++ [nodeRegion (place list.nodes.length) height] := by
  rcases grown.split inside with earlier | rfl
  · rw [(grown.old node earlier).2]
    exact List.mem_append_left _ (represents.owned node earlier)
  · rw [grown.height]
    exact List.mem_concat_self

theorem apart_newNode (represents : Represents place regions list table)
    (grown : Grown list after version.entry height)
    (inv : arena.Inv (regions ++ [nodeRegion (place list.nodes.length) height]))
    {left right : NodePtr} (leftIn : left < after.nodes.length)
    (rightIn : right < after.nodes.length) (differ : left ≠ right) :
    Disjoint (nodeRegion (place left) (after.height left)).bytes
      (nodeRegion (place right) (after.height right)).bytes := by
  rcases grown.split leftIn with leftOld | rfl
  · rw [(grown.old left leftOld).2]
    rcases grown.split rightIn with rightOld | rfl
    · rw [(grown.old right rightOld).2]
      exact represents.apart left leftOld right rightOld differ
    · rw [grown.height]
      exact inv.last_apart _ (represents.owned left leftOld)
  · rcases grown.split rightIn with rightOld | rfl
    · rw [(grown.old right rightOld).2, grown.height]
      exact (inv.last_apart _ (represents.owned right rightOld)).symm
    · exact absurd rfl differ

/-- The store of its key to a new node leaves the slots of the others as they were. -/
theorem slots_newNode (represents : Represents place regions list table)
    (inv : arena.Inv (regions ++ [nodeRegion (place list.nodes.length) height]))
    {level : Nat} {node : NodePtr} {target : Option NodePtr}
    (found : list.next level node = some target) :
    loadWord (storeWord table.memory (place list.nodes.length) key) (slot (place node) level) =
      link place target := by
  have within := SkipList.lt_height_of_next found
  rw [← represents.slots level node target found]
  apply loadWord_store
  rw [length_encodeFixed64]
  have here := slot_inside within (place node)
  have apart := new_apart_node represents inv (SkipList.lt_size_of_lt_height within)
  unfold nodeRegion at *
  dsimp only at *
  omega

/-- And their keys. -/
theorem key_newNode (represents : Represents place regions list table)
    (inv : arena.Inv (regions ++ [nodeRegion (place list.nodes.length) height]))
    {node : NodePtr} (inside : node < list.nodes.length) :
    loadWord (storeWord table.memory (place list.nodes.length) key) (place node) =
      table.key (place node) := by
  apply loadWord_store
  rw [length_encodeFixed64]
  have apart := new_apart_node represents inv inside
  unfold nodeRegion sizeofNode at apart
  dsimp only at apart
  omega

/-- And the entries. -/
theorem stores_newNode {stored : Version} {address : Nat}
    (grown : Grown list after version.entry height)
    (inv : arena.Inv (regions ++ [nodeRegion (place list.nodes.length) height]))
    (stores : Stores place regions list table.memory address stored) :
    Stores place (regions ++ [nodeRegion (place list.nodes.length) height]) after
      (storeWord table.memory (place list.nodes.length) key) address stored := by
  refine ⟨?_, List.mem_append_left _ stores.owned, ?_⟩
  · rw [← stores.bytes, Memory.length_load]
    apply Memory.load_store_of_apart
    rw [length_encodeFixed64]
    have apart := new_apart inv stores.owned
      (Nat.lt_of_lt_of_le (Nat.zero_lt_succ 7) (length_bytes_le stored))
    dsimp only at apart
    omega
  · intro other inside
    rcases grown.split inside with earlier | rfl
    · rw [(grown.old other earlier).2]
      exact stores.apart other earlier
    · rw [grown.height]
      exact inv.last_apart _ stores.owned

end NewNode

/-- A new node and the list with it added. -/
theorem newNode (represents : Represents place regions list table) (fresh : Arena.Fresh heap)
    (space : table.arena.InSpace) {version : Version}
    (stores : Stores place regions list table.memory key version) (tall : 0 < height)
    (top : height ≤ kMaxHeight)
    (placed : place list.nodes.length = (StoredTable.newNode heap table key height).1) :
    Represents place (regions ++ [nodeRegion (place list.nodes.length) height])
      (SkipList.newNode list (some version.entry) height).2
      (StoredTable.newNode heap table key height).2 := by
  have grown := grown_newNode list version.entry height
  generalize (SkipList.newNode list (some version.entry) height).2 = after at *
  have inv : (StoredTable.newNode heap table key height).2.arena.Inv
      (regions ++ [nodeRegion (place list.nodes.length) height]) := by
    rw [placed]
    exact allocates represents.arena fresh top
  have memory : (StoredTable.newNode heap table key height).2.memory =
      storeWord table.memory (place list.nodes.length) key := by
    rw [placed]
    rfl
  refine ⟨inv, represents.head, represents.maxHeight.trans grown.maxHeight.symm, ?_,
    owned_newNode represents grown,
    fun left leftIn right rightIn => apart_newNode represents grown inv leftIn rightIn, ?_, ?_, ?_⟩
  · intro node inside
    rcases grown.split inside with earlier | rfl
    · rw [(grown.old node earlier).2]
      exact represents.tall node earlier
    · rw [grown.height]
      exact tall
  · intro level node target found
    rw [grown.next] at found
    rw [StoredTable.next, memory]
    exact slots_newNode represents inv found
  · intro level node target found
    rw [grown.next] at found
    rw [grown.size]
    exact Nat.lt_succ_of_lt (represents.targets level node target found)
  · intro node entry found
    rw [StoredTable.key, memory]
    rcases grown.split (lt_size_of_key found) with earlier | rfl
    · rw [(grown.old node earlier).1] at found
      obtain ⟨stored, same, holds⟩ := represents.keys node entry found
      rw [key_newNode represents inv earlier]
      exact ⟨stored, same, stores_newNode grown inv holds⟩
    · rw [grown.key] at found
      have positive : 0 < version.bytes.length :=
        Nat.lt_of_lt_of_le (Nat.zero_lt_succ 7) (length_bytes_le version)
      have bounds := represents.arena.inSpace space stores.owned positive
      rw [loadWord_storeWord
        (Nat.lt_of_lt_of_le (Nat.lt_add_of_pos_right positive) bounds.2)]
      exact ⟨version, (Option.some.inj found).symm, stores_newNode grown inv stores⟩

/-- The loop of the constructor. -/
theorem clearLevels (levels : List Nat) :
    ∀ {list : MemTable} {table : StoredTable}, Represents place regions list table →
      table.arena.InSpace → (∀ level ∈ levels, level < list.height node) →
      ∃ after, levels.foldlM (fun list level => SkipList.setNext list level node none) list =
          some after ∧
        Represents place regions after
          (levels.foldl (fun table level => table.setNext level (place node) 0) table) ∧
        (levels.foldl (fun table level => table.setNext level (place node) 0) table).arena =
          table.arena ∧
        SkipList.SameShape list after := by
  induction levels with
  | nil => exact fun represents _ _ => ⟨_, rfl, represents, rfl, .refl _⟩
  | cons level later ih =>
      intro list table represents space within
      have first := within level List.mem_cons_self
      obtain ⟨middle, written, shape, -⟩ := SkipList.setNext_spec first none
      have kept := represents.setNext space (fun node same => by cases same) first written
      obtain ⟨after, rest, last, arena, laterShape⟩ := ih kept space fun other member => by
        rw [shape.height]
        exact within other (List.mem_cons_of_mem _ member)
      refine ⟨after, ?_, last, arena, shape.trans laterShape⟩
      rw [List.foldlM_cons, written]
      exact rest

theorem new_represents (fresh : Arena.Fresh heap) (memory : Memory (BitVec 8))
    (space : (Arena.new.perform heap (nodeRequest kMaxHeight)).2.InSpace) :
    ∃ place region list, (SkipList.new : Option MemTable) = some list ∧
      Represents place [region] list (StoredTable.new heap memory) ∧
      (StoredTable.new heap memory).arena = (Arena.new.perform heap (nodeRequest kMaxHeight)).2 ∧
      list.nodes.length = 1 ∧ list.maxHeight = 1 := by
  generalize made : StoredTable.newNode heap ⟨Arena.new, memory, 0, 1⟩ 0 kMaxHeight = allocated
  have node : allocated.1 =
      (Arena.new.allocateAligned heap
        (sizeofNode + Arena.pointerSize * (kMaxHeight - 1))).1 := by
    rw [← made, newNode_fst]
  have arena : allocated.2.arena = (Arena.new.perform heap (nodeRequest kMaxHeight)).2 := by
    rw [← made, newNode_arena]
  have maxHeight : allocated.2.maxHeight = 1 := by
    rw [← made]
    rfl
  have inv := allocates Arena.Inv.initial fresh (Nat.le_refl kMaxHeight)
  have first : ∀ node, node < 1 → node = headPtr := fun node inside => Nat.lt_one_iff.mp inside
  have unwritten : ∀ level node,
      SkipList.next (⟨[⟨none, List.replicate kMaxHeight none⟩], 1⟩ : MemTable) level node =
        none := by
    intro level node
    cases node with
    | zero =>
        show (List.replicate kMaxHeight none)[level]?.join = none
        rw [List.getElem?_replicate]
        split
        · rfl
        · rfl
    | succ node => rfl
  have start : Represents (fun _ => allocated.1) [nodeRegion allocated.1 kMaxHeight]
      ⟨[⟨none, List.replicate kMaxHeight none⟩], 1⟩
      { allocated.2 with head := allocated.1 } := by
    refine ⟨?_, rfl, ?_, ?_, ?_, ?_, ?_, ?_, ?_⟩
    · rw [node]
      dsimp only
      rw [arena]
      exact inv
    · exact maxHeight
    · intro node inside
      obtain rfl := first node inside
      decide
    · intro node inside
      obtain rfl := first node inside
      exact List.mem_singleton_self _
    · intro left leftIn right rightIn differ
      exact absurd ((first left leftIn).trans (first right rightIn).symm) differ
    · intro level node target found
      rw [unwritten] at found
      cases found
    · intro level node target found
      rw [unwritten] at found
      cases found
    · intro node entry found
      obtain rfl := first node (lt_size_of_key found)
      cases found
  have startSpace : ({ allocated.2 with head := allocated.1 } : StoredTable).arena.InSpace := by
    dsimp only
    rw [arena]
    exact space
  obtain ⟨list, cleared, represents, same, shape⟩ :=
    @clearLevels _ _ headPtr (List.range kMaxHeight) _ _ start startSpace
      (fun level member => List.mem_range.mp member)
  refine ⟨fun _ => allocated.1, nodeRegion allocated.1 kMaxHeight, list, cleared, ?_, ?_,
    shape.size, shape.maxHeight⟩
  · rw [StoredTable.new, made]
    exact represents
  · rw [StoredTable.new, made]
    exact same.trans arena

end Allocation

end Represents

end StoredTable

end MiniLevelDb
