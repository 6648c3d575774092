import Mathlib.Order.Disjoint

/-!
# Carving

Pieces are taken out of blocks, one after the other: out of what is still unused of a
block, or out of a new block. Blocks and pieces are ordered by inclusion; an allocator
takes sets of addresses for them.
-/

namespace Foundation

variable {Area : Type} [PartialOrder Area] [OrderBot Area]

/-- The pieces are apart from each other and from what is unused, and each of them and
what is unused lies in a block. -/
structure Carved (blocks : List Area) (unused : Area) (pieces : List Area) : Prop where
  inside : ∀ piece ∈ pieces, ∃ block ∈ blocks, piece ≤ block
  apart : ∀ piece ∈ pieces, Disjoint piece unused
  pairwise : pieces.Pairwise Disjoint
  home : unused = ⊥ ∨ ∃ block ∈ blocks, unused ≤ block

namespace Carved

variable {blocks pieces : List Area} {unused piece rest block : Area}

theorem initial : Carved ([] : List Area) ⊥ [] :=
  ⟨fun _ => nofun, fun _ => nofun, .nil, .inl rfl⟩

/-- A piece that is apart from the others. -/
private theorem pairwise_append (pairwise : pieces.Pairwise Disjoint)
    (apart : ∀ other ∈ pieces, Disjoint other piece) : (pieces ++ [piece]).Pairwise Disjoint := by
  rw [List.pairwise_append]
  refine ⟨pairwise, List.pairwise_singleton _ _, fun other member => ?_⟩
  rw [List.forall_mem_singleton]
  exact apart other member

/-- A piece of what is unused. -/
theorem take (carved : Carved blocks unused pieces) (some_ : piece ≠ ⊥)
    (piece_le : piece ≤ unused) (rest_le : rest ≤ unused) (split : Disjoint piece rest) :
    Carved blocks rest (pieces ++ [piece]) := by
  have home : ∃ block ∈ blocks, unused ≤ block := by
    refine carved.home.resolve_left fun empty => some_ ?_
    rw [empty] at piece_le
    exact le_bot_iff.mp piece_le
  obtain ⟨block, member, unused_le⟩ := home
  have apart : ∀ other ∈ pieces, Disjoint other piece :=
    fun other among => (carved.apart other among).mono_right piece_le
  refine ⟨?_, ?_, pairwise_append carved.pairwise apart, .inr ⟨block, member, ?_⟩⟩
  · rw [List.forall_mem_append, List.forall_mem_singleton]
    exact ⟨carved.inside, block, member, piece_le.trans unused_le⟩
  · rw [List.forall_mem_append, List.forall_mem_singleton]
    exact ⟨fun other among => (carved.apart other among).mono_right rest_le, split⟩
  · exact rest_le.trans unused_le

/-- A piece of a new block. What is unused is either what it was before, or in the new
block too. -/
theorem takeNew (carved : Carved blocks unused pieces)
    (fresh : ∀ other ∈ blocks, Disjoint other block) (piece_le : piece ≤ block)
    (unused_new : rest = unused ∨ rest ≤ block ∧ Disjoint piece rest) :
    Carved (blocks ++ [block]) rest (pieces ++ [piece]) := by
  have old : ∀ other ∈ pieces, Disjoint other block := by
    intro other among
    obtain ⟨home, member, inside⟩ := carved.inside other among
    exact (fresh home member).mono_left inside
  have apart : ∀ other ∈ pieces, Disjoint other piece :=
    fun other among => (old other among).mono_right piece_le
  have inside : ∀ other ∈ pieces ++ [piece], ∃ home ∈ blocks ++ [block], other ≤ home := by
    rw [List.forall_mem_append, List.forall_mem_singleton]
    refine ⟨fun other among => ?_, block, List.mem_concat_self, piece_le⟩
    obtain ⟨home, member, le⟩ := carved.inside other among
    exact ⟨home, List.mem_append_left _ member, le⟩
  refine ⟨inside, ?_, pairwise_append carved.pairwise apart, ?_⟩
  · rw [List.forall_mem_append, List.forall_mem_singleton]
    rcases unused_new with rfl | ⟨rest_le, split⟩
    · refine ⟨carved.apart, ?_⟩
      rcases carved.home with rfl | ⟨home, member, unused_le⟩
      · exact disjoint_bot_right
      · exact ((fresh home member).mono unused_le piece_le).symm
    · exact ⟨fun other among => (old other among).mono_right rest_le, split⟩
  · rcases unused_new with rfl | ⟨rest_le, split⟩
    · refine carved.home.imp_right fun ⟨home, member, le⟩ => ?_
      exact ⟨home, List.mem_append_left _ member, le⟩
    · exact .inr ⟨block, List.mem_concat_self, rest_le⟩

end Carved

end Foundation
