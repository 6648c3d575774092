import MiniLevelDb.Foundation.Carving
import Mathlib.Order.CompletePartialOrder
import Mathlib.Order.Interval.Set.Disjoint
import Mathlib.Algebra.Order.BigOperators.Group.List
import Mathlib.Algebra.Order.Ring.Nat
import Mathlib.Data.List.Forall2

/-!
# The arena

`Arena` over an allocator that stands for `new char[n]`: it says where the next block is,
given those that live. `memory_usage_` counts bytes that live at the same time (the
blocks, and their pointers in `blocks_`), so it does not wrap around.
-/

namespace MiniLevelDb

open Foundation

/-- The bytes `[address, address + size)`. -/
structure Region where
  address : Nat
  size : Nat
deriving DecidableEq, Repr

def Region.bytes (region : Region) : Set Nat :=
  Set.Ico region.address (region.address + region.size)

structure Arena where
  allocPtr : Nat
  allocBytesRemaining : Nat
  blocks : List Region
  memoryUsage : Nat
deriving DecidableEq, Repr

namespace Arena

def kBlockSize : Nat := 4096

/-- `sizeof(char*)`. -/
def pointerSize : Nat := 8

/-- `align` in `AllocateAligned`. -/
def align : Nat := if pointerSize > 8 then pointerSize else 8

/-- The constructor. -/
def new : Arena := ⟨0, 0, [], 0⟩

variable (heap : List Region → Nat → Nat)

/-- `AllocateNewBlock`. -/
def allocateNewBlock (arena : Arena) (blockBytes : Nat) : Nat × Arena :=
  let result := heap arena.blocks blockBytes
  (result, { arena with
    blocks := arena.blocks ++ [⟨result, blockBytes⟩]
    memoryUsage := arena.memoryUsage + (blockBytes + pointerSize) })

/-- `AllocateFallback`. -/
def allocateFallback (arena : Arena) (bytes : Nat) : Nat × Arena :=
  if bytes > kBlockSize / 4 then arena.allocateNewBlock heap bytes
  else
    let (result, after) := arena.allocateNewBlock heap kBlockSize
    (result, { after with
      allocPtr := result + bytes
      allocBytesRemaining := kBlockSize - bytes })

/-- `Allocate`. -/
def allocate (arena : Arena) (bytes : Nat) : Nat × Arena :=
  if bytes ≤ arena.allocBytesRemaining then
    (arena.allocPtr, { arena with
      allocPtr := arena.allocPtr + bytes
      allocBytesRemaining := arena.allocBytesRemaining - bytes })
  else arena.allocateFallback heap bytes

/-- How far `alloc_ptr_` is from the next multiple of `align`. -/
def slop (arena : Arena) : Nat :=
  let currentMod := arena.allocPtr &&& (align - 1)
  if currentMod = 0 then 0 else align - currentMod

/-- `AllocateAligned`, with its sum in `size_t`. -/
def allocateAligned (arena : Arena) (bytes : Nat) : Nat × Arena :=
  let needed := (bytes + arena.slop) % 2 ^ 64
  if needed ≤ arena.allocBytesRemaining then
    (arena.allocPtr + arena.slop, { arena with
      allocPtr := arena.allocPtr + needed
      allocBytesRemaining := arena.allocBytesRemaining - needed })
  else arena.allocateFallback heap bytes

inductive Request where
  | allocate (bytes : Nat)
  | allocateAligned (bytes : Nat)
deriving DecidableEq, Repr

def Request.bytes : Request → Nat
  | .allocate bytes | .allocateAligned bytes => bytes

/-- The bytes a request gets, and the arena after it. -/
def perform (arena : Arena) : Request → Region × Arena
  | .allocate bytes =>
      let (result, after) := arena.allocate heap bytes
      (⟨result, bytes⟩, after)
  | .allocateAligned bytes =>
      let (result, after) := arena.allocateAligned heap bytes
      (⟨result, bytes⟩, after)

def performAll (arena : Arena) : List Request → List Region × Arena
  | [] => ([], arena)
  | request :: later =>
      let (region, after) := arena.perform heap request
      let (regions, last) := after.performAll later
      (region :: regions, last)

/-- `[alloc_ptr_, alloc_ptr_ + alloc_bytes_remaining_)`. -/
def unused (arena : Arena) : Region := ⟨arena.allocPtr, arena.allocBytesRemaining⟩

/-- What `new char[n]` promises. -/
def Fresh : Prop :=
  ∀ blocks bytes, heap blocks bytes % 8 = 0 ∧
    ∀ block ∈ blocks, Disjoint block.bytes (Region.mk (heap blocks bytes) bytes).bytes

section Steps

variable {heap : List Region → Nat → Nat} {arena : Arena} {request : Request}

theorem slop_eq (arena : Arena) :
    arena.slop < 8 ∧ (arena.allocPtr + arena.slop) % 8 = 0 := by
  have mod : arena.allocPtr &&& (align - 1) = arena.allocPtr % 8 :=
    Nat.and_two_pow_sub_one_eq_mod arena.allocPtr 3
  unfold slop
  dsimp only
  rw [mod, show align = 8 from rfl]
  split <;> omega

/-- A block of its own, or a new block that replaces what was unused. -/
theorem allocateFallback_cases (arena : Arena) (fresh : Fresh heap) (bytes : Nat) :
    ∃ address after, arena.allocateFallback heap bytes = (address, after) ∧ address % 8 = 0 ∧
      ((address = heap arena.blocks bytes ∧ after = (arena.allocateNewBlock heap bytes).2) ∨
        (bytes ≤ kBlockSize ∧ address = heap arena.blocks kBlockSize ∧
          after = { (arena.allocateNewBlock heap kBlockSize).2 with
            allocPtr := address + bytes
            allocBytesRemaining := kBlockSize - bytes })) := by
  unfold allocateFallback
  split
  · exact ⟨_, _, rfl, (fresh _ _).1, .inl ⟨rfl, rfl⟩⟩
  · rename_i small
    have fits : bytes ≤ kBlockSize := by
      rw [kBlockSize] at small ⊢
      omega
    exact ⟨_, _, rfl, (fresh _ _).1, .inr ⟨fits, rfl, rfl⟩⟩

/-- A request is served out of what is unused, by a block of its own, or out of a new
block that replaces what was unused. -/
theorem perform_cases (arena : Arena) (fresh : Fresh heap) (some_ : 0 < request.bytes)
    (bounded : request.bytes < 2 ^ 63) :
    ∃ address after, arena.perform heap request = (⟨address, request.bytes⟩, after) ∧
      ((∃ bytes, request = .allocateAligned bytes) → address % 8 = 0) ∧
      ((∃ slop, slop + request.bytes ≤ arena.allocBytesRemaining ∧
          address = arena.allocPtr + slop ∧
          after = { arena with
            allocPtr := arena.allocPtr + (slop + request.bytes)
            allocBytesRemaining := arena.allocBytesRemaining - (slop + request.bytes) }) ∨
        (address = heap arena.blocks request.bytes ∧
          after = (arena.allocateNewBlock heap request.bytes).2) ∨
        (request.bytes ≤ kBlockSize ∧ address = heap arena.blocks kBlockSize ∧
          after = { (arena.allocateNewBlock heap kBlockSize).2 with
            allocPtr := address + request.bytes
            allocBytesRemaining := kBlockSize - request.bytes })) := by
  obtain ⟨address, after, called, aligned, served⟩ :=
    arena.allocateFallback_cases fresh request.bytes
  cases request with
  | allocate bytes =>
      rw [perform, allocate]
      by_cases fits : bytes ≤ arena.allocBytesRemaining
      · rw [if_pos fits]
        refine ⟨_, _, rfl, ?_, .inl ⟨0, ?_, rfl, ?_⟩⟩
        · rintro ⟨_, other⟩
          cases other
        · rw [Nat.zero_add]
          exact fits
        · rw [Nat.zero_add]
          rfl
      · rw [if_neg fits, show arena.allocateFallback heap bytes = (address, after) from called]
        exact ⟨address, after, rfl, fun _ => aligned, .inr served⟩
  | allocateAligned bytes =>
      obtain ⟨slop_lt, slop_aligned⟩ := arena.slop_eq
      have needed : (bytes + arena.slop) % 2 ^ 64 = arena.slop + bytes := by
        have below : bytes < 2 ^ 63 := bounded
        rw [Nat.mod_eq_of_lt (by omega), Nat.add_comm]
      rw [perform, allocateAligned, needed]
      by_cases fits : arena.slop + bytes ≤ arena.allocBytesRemaining
      · rw [if_pos fits]
        exact ⟨_, _, rfl, fun _ => slop_aligned, .inl ⟨arena.slop, fits, rfl, rfl⟩⟩
      · rw [if_neg fits, show arena.allocateFallback heap bytes = (address, after) from called]
        exact ⟨address, after, rfl, fun _ => aligned, .inr served⟩

/-- The regions handed out are carved out of the blocks, and `memory_usage_` counts the
blocks with their pointers. -/
structure Inv (arena : Arena) (regions : List Region) : Prop where
  carved : Carved (arena.blocks.map Region.bytes) arena.unused.bytes (regions.map Region.bytes)
  usage : arena.memoryUsage = (arena.blocks.map fun block => block.size + pointerSize).sum
  requested : (regions.map Region.size).sum + arena.allocBytesRemaining ≤
    (arena.blocks.map Region.size).sum

/-- A region serves a request: it has its size, and is aligned where that is asked for. -/
def Serves (request : Request) (region : Region) : Prop :=
  region.size = request.bytes ∧
    ((∃ bytes, request = .allocateAligned bytes) → region.address % 8 = 0)

namespace Inv

variable {regions : List Region}

theorem initial : Inv new [] where
  carved := by
    have empty : new.unused.bytes = ⊥ := Set.Ico_self 0
    rw [empty]
    exact Carved.initial
  usage := rfl
  requested := Nat.le_refl 0

/-- A region at the start of a fresh block. -/
theorem addBlock (inv : Inv arena regions) (fresh : Fresh heap) {after : Arena}
    {bytes blockBytes : Nat} (fits : bytes ≤ blockBytes)
    (blocks : after.blocks = arena.blocks ++ [⟨heap arena.blocks blockBytes, blockBytes⟩])
    (usage : after.memoryUsage = arena.memoryUsage + (blockBytes + pointerSize))
    (unused : after.unused = arena.unused ∧ bytes = blockBytes ∨
      after.unused = ⟨heap arena.blocks blockBytes + bytes, blockBytes - bytes⟩) :
    Inv after (regions ++ [⟨heap arena.blocks blockBytes, bytes⟩]) where
  carved := by
    rw [blocks, List.map_append, List.map_append, List.map_singleton, List.map_singleton]
    refine inv.carved.takeNew ?_ ?_ ?_
    · rw [List.forall_mem_map]
      exact (fresh arena.blocks blockBytes).2
    · exact Set.Ico_subset_Ico_right (Nat.add_le_add_left fits _)
    · refine unused.imp (fun same => congrArg Region.bytes same.1) fun split => ?_
      rw [split]
      refine ⟨Set.Ico_subset_Ico (Nat.le_add_right _ _) (by dsimp only; omega), ?_⟩
      exact Set.Ico_disjoint_Ico_same
  usage := by
    rw [usage, blocks, List.map_append, List.sum_append, inv.usage]
    simp
  requested := by
    have requested := inv.requested
    rw [blocks, List.map_append, List.map_append, List.sum_append, List.sum_append]
    simp only [List.map_singleton, List.sum_singleton]
    rcases unused with ⟨same, whole⟩ | split
    · have remaining : after.allocBytesRemaining = arena.allocBytesRemaining :=
        congrArg Region.size same
      omega
    · have remaining : after.allocBytesRemaining = blockBytes - bytes :=
        congrArg Region.size split
      omega

/-- A region of what is unused. -/
theorem bump (inv : Inv arena regions) {slop bytes : Nat} (some_ : 0 < bytes)
    (fits : slop + bytes ≤ arena.allocBytesRemaining) :
    Inv { arena with
      allocPtr := arena.allocPtr + (slop + bytes)
      allocBytesRemaining := arena.allocBytesRemaining - (slop + bytes) }
      (regions ++ [⟨arena.allocPtr + slop, bytes⟩]) where
  carved := by
    rw [List.map_append, List.map_singleton]
    refine inv.carved.take ?_ ?_ ?_ ?_
    · refine Set.Nonempty.ne_empty (Set.nonempty_Ico.mpr ?_)
      dsimp only
      omega
    · refine Set.Ico_subset_Ico (Nat.le_add_right _ _) ?_
      dsimp only [Arena.unused]
      omega
    · refine Set.Ico_subset_Ico (Nat.le_add_right _ _) ?_
      dsimp only [Arena.unused]
      omega
    · rw [Region.bytes, Region.bytes, ← Nat.add_assoc]
      exact Set.Ico_disjoint_Ico_same
  usage := inv.usage
  requested := by
    have requested := inv.requested
    rw [List.map_append, List.sum_append]
    simp only [List.map_singleton, List.sum_singleton]
    omega

theorem perform (inv : Inv arena regions) (fresh : Fresh heap) (some_ : 0 < request.bytes)
    (bounded : request.bytes < 2 ^ 63) :
    Serves request (arena.perform heap request).1 ∧
      Inv (arena.perform heap request).2 (regions ++ [(arena.perform heap request).1]) := by
  obtain ⟨address, after, performed, aligned, served⟩ :=
    perform_cases arena fresh some_ bounded
  rw [performed]
  refine ⟨⟨rfl, aligned⟩, ?_⟩
  rcases served with ⟨slop, fits, rfl, rfl⟩ | ⟨rfl, rfl⟩ | ⟨fits, rfl, rfl⟩
  · exact inv.bump some_ fits
  · exact inv.addBlock fresh (Nat.le_refl _) rfl rfl (.inl ⟨rfl, rfl⟩)
  · exact inv.addBlock fresh fits rfl rfl (.inr rfl)

theorem performAll {requests : List Request} (inv : Inv arena regions) (fresh : Fresh heap)
    (sizes : ∀ request ∈ requests, 0 < request.bytes ∧ request.bytes < 2 ^ 63) :
    List.Forall₂ Serves requests (arena.performAll heap requests).1 ∧
      Inv (arena.performAll heap requests).2
        (regions ++ (arena.performAll heap requests).1) := by
  induction requests generalizing arena regions with
  | nil =>
      rw [Arena.performAll, List.append_nil]
      exact ⟨.nil, inv⟩
  | cons request later ih =>
      rw [List.forall_mem_cons] at sizes
      obtain ⟨⟨some_, bounded⟩, rest⟩ := sizes
      obtain ⟨serves, kept⟩ := inv.perform fresh some_ bounded
      obtain ⟨servesAll, keptAll⟩ := ih kept rest
      rw [List.append_assoc, List.singleton_append] at keptAll
      exact ⟨.cons serves servesAll, keptAll⟩

end Inv

end Steps

/-- Every region that an arena hands out lies in one of its blocks, apart from the others
and from what is unused, with the size and the alignment asked for, and
`MemoryUsage` counts the blocks with their pointers. -/
theorem performAll_apart {heap : List Region → Nat → Nat} (fresh : Fresh heap)
    {requests : List Request}
    (sizes : ∀ request ∈ requests, 0 < request.bytes ∧ request.bytes < 2 ^ 63) :
    let regions := (new.performAll heap requests).1
    let arena := (new.performAll heap requests).2
    List.Forall₂ Serves requests regions ∧
      (∀ region ∈ regions, ∃ block ∈ arena.blocks, region.bytes ⊆ block.bytes) ∧
      regions.Pairwise (fun region later => Disjoint region.bytes later.bytes) ∧
      (arena.unused.bytes = ∅ ∨
        ∃ block ∈ arena.blocks, arena.unused.bytes ⊆ block.bytes) ∧
      (∀ region ∈ regions, Disjoint region.bytes arena.unused.bytes) ∧
      arena.memoryUsage = (arena.blocks.map fun block => block.size + pointerSize).sum ∧
      (requests.map Request.bytes).sum ≤ arena.memoryUsage := by
  intro regions arena
  obtain ⟨serves, inv⟩ := Inv.initial.performAll fresh sizes
  rw [List.nil_append] at inv
  obtain ⟨inside, apart, pairwise, home⟩ := inv.carved
  simp only [List.forall_mem_map] at inside apart
  simp only [List.mem_map, exists_exists_and_eq_and] at inside home
  rw [List.pairwise_map] at pairwise
  refine ⟨serves, inside, pairwise, home, apart, inv.usage, ?_⟩
  have sizes : requests.map Request.bytes = regions.map Region.size := by
    rw [← List.forall₂_eq_eq_eq, List.forall₂_map_left_iff, List.forall₂_map_right_iff]
    exact serves.imp fun _ _ served => served.1.symm
  calc (requests.map Request.bytes).sum = (regions.map Region.size).sum := by rw [sizes]
    _ ≤ (arena.blocks.map Region.size).sum := Nat.le_of_add_right_le inv.requested
    _ ≤ (arena.blocks.map fun block => block.size + pointerSize).sum :=
        List.sum_le_sum fun block _ => Nat.le_add_right _ _
    _ = arena.memoryUsage := inv.usage.symm

/-- A small request, a large one with a block of its own, and an aligned one that leaves
seven bytes out, over a heap that grows upwards. -/
theorem performAll_apart_three :
    let heap := fun (blocks : List Region) (_ : Nat) =>
      8 * ((blocks.map fun block => block.address + block.size).sum + 1)
    let requests : List Request := [.allocate 1, .allocate 5000, .allocateAligned 16]
    let regions := (new.performAll heap requests).1
    let arena := (new.performAll heap requests).2
    regions = [⟨8, 1⟩, ⟨32840, 5000⟩, ⟨16, 16⟩] ∧
    (List.Forall₂ Serves requests regions ∧
      (∀ region ∈ regions, ∃ block ∈ arena.blocks, region.bytes ⊆ block.bytes) ∧
      regions.Pairwise (fun region later => Disjoint region.bytes later.bytes) ∧
      (arena.unused.bytes = ∅ ∨
        ∃ block ∈ arena.blocks, arena.unused.bytes ⊆ block.bytes) ∧
      (∀ region ∈ regions, Disjoint region.bytes arena.unused.bytes) ∧
      arena.memoryUsage = (arena.blocks.map fun block => block.size + pointerSize).sum ∧
      (requests.map Request.bytes).sum ≤ arena.memoryUsage) := by
  refine ⟨by decide, performAll_apart (fun blocks bytes => ⟨?_, fun block member => ?_⟩) ?_⟩
  · exact Nat.mul_mod_right 8 _
  · refine Set.Ico_disjoint_Ico.mpr ?_
    have below : block.address + block.size ≤
        (blocks.map fun block => block.address + block.size).sum :=
      List.single_le_sum (fun _ _ => Nat.zero_le _) _ (List.mem_map_of_mem member)
    dsimp only
    omega
  · decide

end Arena

end MiniLevelDb
