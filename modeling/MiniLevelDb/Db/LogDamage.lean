import MiniLevelDb.Db.LogInitialOffset
import Mathlib.Data.List.Flatten
import Mathlib.Data.List.Sort

/-!
# Corruption stays contained

Blocks of a written log are damaged from a physical record on, so that the checks
of `ReadPhysicalRecord` fail there. The reader gives up on the rest of such a
block and goes on with the next one: it meets the physical records outside of the
damaged regions and nothing else (`scan_damaged`), and finds exactly the records
that lie outside of them.
-/

namespace MiniLevelDb.Log

open Writer

/-! ## Damage -/

/-- `offset` lies in the region from `cut` to the end of its block. -/
def inRegion (cut offset : Nat) : Bool :=
  decide (cut ≤ offset ∧ offset / kBlockSize = cut / kBlockSize)

/-- `offset` lies in a damaged region. -/
def damaged (cuts : List Nat) (offset : Nat) : Bool :=
  cuts.any (inRegion · offset)

/-- What `ReadPhysicalRecord` has in its buffer at `offset`. -/
def bufferAt (contents : Slice) (offset : Nat) : Slice :=
  (contents.drop offset).take (room offset)

/-- One of the checks of `ReadPhysicalRecord` fails at `offset`: the length runs
past the buffer, type and length are zero, or the checksum does not match. -/
def Fails (contents : Slice) (offset : Nat) : Prop :=
  kHeaderSize + Reader.headerLength (bufferAt contents offset) >
      (bufferAt contents offset).length ∨
    (Reader.headerType (bufferAt contents offset) = RecordType.zero.code ∧
      Reader.headerLength (bufferAt contents offset) = 0) ∨
    Reader.checksumMatches (bufferAt contents offset) = false

theorem inRegion_iff {cut offset : Nat} :
    inRegion cut offset = true ↔ cut ≤ offset ∧ offset / kBlockSize = cut / kBlockSize :=
  decide_eq_true_iff

theorem damaged_iff {cuts : List Nat} {offset : Nat} :
    damaged cuts offset = true ↔
      ∃ cut ∈ cuts, cut ≤ offset ∧ offset / kBlockSize = cut / kBlockSize := by
  simp only [damaged, List.any_eq_true, inRegion_iff]

/-- Where a check fails, the reader gives up on the rest of the block; in the last,
partial block it may take the damage for the end of the file. -/
theorem parseAt_fails {config : ReaderConfig} (checks : config.checksum = true)
    {contents : Slice} {offset : Nat} (fails : Fails contents offset)
    (enough : kHeaderSize ≤ (bufferAt contents offset).length) :
    (parseAt config offset (contents.drop offset) = none ∧
        contents.length < offset + room offset) ∨
      ∃ drop, parseAt config offset (contents.drop offset) =
        some (.bad (offset + (bufferAt contents offset).length) drop) := by
  have buffer : (contents.drop offset).take (room offset) = bufferAt contents offset := rfl
  unfold parseAt
  simp only [buffer, enough.not_gt, ↓reduceIte, checks, Bool.true_and]
  by_cases long : kHeaderSize + Reader.headerLength (bufferAt contents offset) >
      (bufferAt contents offset).length
  · simp only [if_pos long]
    by_cases torn : (contents.drop offset).length < room offset
    · left
      refine ⟨if_pos torn, ?_⟩
      rw [List.length_drop] at torn
      omega
    · right
      exact ⟨_, if_neg torn⟩
  · simp only [if_neg long]
    right
    by_cases zero : Reader.headerType (bufferAt contents offset) = RecordType.zero.code ∧
        Reader.headerLength (bufferAt contents offset) = 0
    · exact ⟨_, if_pos zero⟩
    · have mismatch : (!Reader.checksumMatches (bufferAt contents offset)) = true := by
        rcases fails with absurd | absurd | mismatch
        · exact (long absurd).elim
        · exact (zero absurd).elim
        · rw [mismatch]
          rfl
      simp only [if_neg zero, if_pos mismatch]
      exact ⟨_, rfl⟩

/-- The damage as it meets the physical records `fragments` from `offset` on to
the end of the file: those outside of the damaged regions are as they were, and no
region begins inside of one. -/
structure Site (contents : Slice) (cuts : List Nat) (offset : Nat) (fragments : List Fragment) :
    Prop where
  typed : ∀ fragment ∈ fragments, fragment.Typed
  fits : Fits offset fragments
  length : contents.length = endOffset offset fragments
  intact : ∀ placed ∈ layout offset fragments, damaged cuts placed.1 = false →
    (contents.drop placed.1).take placed.2.size = placed.2.bytes
  clear : ∀ placed ∈ layout offset fragments, ∀ cut ∈ cuts,
    cut ≤ placed.1 ∨ placed.1 + placed.2.size ≤ cut

namespace Site

variable {contents : Slice} {cuts : List Nat} {offset : Nat} {fragment : Fragment}
  {later : List Fragment}

theorem tail (site : Site contents cuts offset (fragment :: later)) :
    Site contents cuts (nextStart offset + fragment.size) later where
  typed := (List.forall_mem_cons.mp site.typed).2
  fits := site.fits.2
  length := site.length
  intact placed member := site.intact placed (List.mem_cons_of_mem _ member)
  clear placed member := site.clear placed (List.mem_cons_of_mem _ member)

/-- The physical records do not depend on a trailer before them. -/
theorem move (site : Site contents cuts offset (fragment :: later)) {other : Nat}
    (same : nextStart other = nextStart offset) :
    Site contents cuts other (fragment :: later) := by
  have placed : layout other (fragment :: later) = layout offset (fragment :: later) := by
    rw [layout, layout, same]
  refine ⟨site.typed, ?_, ?_, ?_, ?_⟩
  · rw [Fits, same]
    exact site.fits
  · rw [endOffset, same]
    exact site.length
  · rw [placed]
    exact site.intact
  · rw [placed]
    exact site.clear

end Site

/-- The event, if any, at the place of a physical record of the damaged log. -/
def metAt (config : ReaderConfig) (contents : Slice) (cuts : List Nat)
    (placed : Nat × Fragment) : Option Event :=
  if damaged cuts placed.1 then
    if placed.1 ∈ cuts then parseAt config placed.1 (contents.drop placed.1) else none
  else
    some (Fragment.event config placed)

section

variable {config : ReaderConfig} (checks : config.checksum = true) {contents : Slice}
  {cuts : List Nat}
  (apart : cuts.Pairwise fun left right => left / kBlockSize < right / kBlockSize)
  (fails : ∀ cut ∈ cuts, Fails contents cut)

/-- The file offset of the block after the one of `cut`. -/
def nextBlock (cut : Nat) : Nat :=
  (cut / kBlockSize + 1) * kBlockSize

theorem nextBlock_eq (cut : Nat) : nextBlock cut = cut + room cut := by
  unfold nextBlock room kBlockSize
  omega

theorem nextBlock_aligned (cut : Nat) : nextBlock cut % kBlockSize = 0 :=
  Nat.mul_mod_left _ _

theorem nextStart_cases (offset : Nat) :
    nextStart offset = offset ∨ nextStart offset % kBlockSize = 0 := by
  unfold nextStart padding room kHeaderSize kBlockSize
  split <;> omega

/-- At the start of a physical record of the file, the buffer holds a header. -/
theorem Site.enough {offset : Nat} {fragment : Fragment} {later : List Fragment}
    (site : Site contents cuts offset (fragment :: later)) :
    nextStart offset + fragment.size ≤ contents.length ∧
      kHeaderSize ≤ (bufferAt contents (nextStart offset)).length := by
  have ends : nextStart offset + fragment.size ≤ contents.length := by
    rw [site.length, endOffset]
    exact le_endOffset _ _
  have header := kHeaderSize_le_room_nextStart offset
  refine ⟨ends, ?_⟩
  rw [bufferAt, List.length_take, List.length_drop]
  unfold Fragment.size at ends
  omega

/-- After the buffer comes the next block, or the end of the file. -/
theorem scan_after_buffer (offset : Nat) :
    scan config (offset + (bufferAt contents offset).length)
        (contents.drop (offset + (bufferAt contents offset).length)) =
      scan config (nextBlock offset) (contents.drop (nextBlock offset)) := by
  rw [nextBlock_eq]
  by_cases whole : offset + room offset ≤ contents.length
  · have length : (bufferAt contents offset).length = room offset := by
      rw [bufferAt, List.length_take, List.length_drop]
      omega
    rw [length]
  · have length : contents.length ≤ offset + (bufferAt contents offset).length := by
      rw [bufferAt, List.length_take, List.length_drop]
      omega
    rw [List.drop_eq_nil_of_le length, List.drop_eq_nil_of_le (by omega), scan_nil, scan_nil]

theorem filterMap_cons_toList {Item Result : Type} (meet : Item → Option Result) (first : Item)
    (later : List Item) :
    (first :: later).filterMap meet = (meet first).toList ++ later.filterMap meet := by
  rw [List.filterMap_cons]
  cases meet first <;> rfl

/-- A block is damaged from one place on. -/
theorem apart_unique {cuts : List Nat}
    (apart : cuts.Pairwise fun left right => left / kBlockSize < right / kBlockSize)
    {cut other : Nat} (member : cut ∈ cuts) (otherMember : other ∈ cuts)
    (block : cut / kBlockSize = other / kBlockSize) : cut = other := by
  induction cuts with
  | nil => cases member
  | cons first later ih =>
      rw [List.pairwise_cons] at apart
      rcases List.mem_cons.mp member with rfl | further <;>
        rcases List.mem_cons.mp otherMember with rfl | otherFurther
      · rfl
      · exact absurd block (Nat.ne_of_lt (apart.1 other otherFurther))
      · exact absurd block.symm (Nat.ne_of_lt (apart.1 cut further))
      · exact ih apart.2 further otherFurther

section Place

variable {offset : Nat} {fragment : Fragment} {later : List Fragment} {events : List Event}

/-- Where the damage of a block begins, the rest of the block is given up on. -/
theorem Site.scan_hit (site : Site contents cuts offset (fragment :: later))
    (checks : config.checksum = true) (fails : Fails contents (nextStart offset))
    (hit : damaged cuts (nextStart offset) = true) (member : nextStart offset ∈ cuts)
    (rest : scan config (nextBlock (nextStart offset))
      (contents.drop (nextBlock (nextStart offset))) = events) :
    scan config offset (contents.drop offset) =
      (metAt config contents cuts (nextStart offset, fragment)).toList ++ events := by
  have met : metAt config contents cuts (nextStart offset, fragment) =
      parseAt config (nextStart offset) (contents.drop (nextStart offset)) := by
    rw [metAt, if_pos hit, if_pos member]
  rw [met]
  rcases parseAt_fails checks fails site.enough.2 with ⟨ended, short⟩ | ⟨drop, bad⟩
  · rw [scan_of_none (by rw [drop_padding]; exact ended), ended]
    rw [List.drop_eq_nil_of_le (by rw [nextBlock_eq]; omega), scan_nil] at rest
    exact rest
  · rw [scan_drop_of_some bad (Nat.le_add_right _ _), bad, Event.stop, scan_after_buffer, rest]
    rfl

/-- A physical record before the damage of its block is met as it was written. -/
theorem Site.scan_spared (site : Site contents cuts offset (fragment :: later))
    (spared : damaged cuts (nextStart offset) = false)
    (rest : scan config (nextStart offset + fragment.size)
      (contents.drop (nextStart offset + fragment.size)) = events) :
    scan config offset (contents.drop offset) =
      (metAt config contents cuts (nextStart offset, fragment)).toList ++ events := by
  have intact := site.intact _ List.mem_cons_self spared
  have bytes : contents.drop (nextStart offset) = fragment.bytes ++
      (contents.drop (nextStart offset)).drop fragment.size := by
    rw [← intact, List.take_append_drop]
  have parsed := parseAt_bytes config (site.typed fragment List.mem_cons_self) site.fits.1
    ((contents.drop (nextStart offset)).drop fragment.size)
  rw [← bytes] at parsed
  have stop := Fragment.stop_event config (nextStart offset, fragment)
  have met : metAt config contents cuts (nextStart offset, fragment) =
      some (Fragment.event config (nextStart offset, fragment)) :=
    if_neg (Bool.eq_false_iff.mp spared)
  rw [scan_drop_of_some parsed (stop ▸ Nat.le_add_right _ _), met, stop, rest]
  rfl

end Place

include checks apart fails

/-- The scan of a damaged log: at a place before any damage of its block, and after
the reader has given up on a block. -/
theorem scan_site (fragments : List Fragment) :
    (∀ offset, Site contents cuts offset fragments →
        (∀ cut ∈ cuts, cut / kBlockSize = offset / kBlockSize → offset ≤ cut) →
        scan config offset (contents.drop offset) =
          (layout offset fragments).filterMap (metAt config contents cuts)) ∧
      ∀ offset, Site contents cuts offset fragments →
        ∀ cut ∈ cuts, cut < offset → offset ≤ nextBlock cut →
        scan config (nextBlock cut) (contents.drop (nextBlock cut)) =
          (layout offset fragments).filterMap (metAt config contents cuts) := by
  induction fragments with
  | nil =>
      have nothing : ∀ offset place, Site contents cuts offset [] → offset ≤ place →
          scan config place (contents.drop place) = [] := by
        intro offset place site before
        have length : contents.length = offset := site.length
        rw [List.drop_eq_nil_of_le (by omega), scan_nil]
      exact ⟨fun offset site _ => nothing offset offset site (Nat.le_refl _),
        fun offset site cut _ _ before => nothing offset _ site before⟩
  | cons fragment later ih =>
      obtain ⟨onward, givenUp⟩ := ih
      have alive : ∀ offset, Site contents cuts offset (fragment :: later) →
          (∀ cut ∈ cuts, cut / kBlockSize = offset / kBlockSize → offset ≤ cut) →
          scan config offset (contents.drop offset) =
            (layout offset (fragment :: later)).filterMap (metAt config contents cuts) := by
        intro offset site before
        have startBefore : ∀ cut ∈ cuts, cut / kBlockSize = nextStart offset / kBlockSize →
            nextStart offset ≤ cut := by
          intro cut member block
          rcases nextStart_cases offset with same | aligned
          · rw [same] at block ⊢
            exact before cut member block
          · unfold kBlockSize at *
            omega
        rw [layout, filterMap_cons_toList]
        by_cases hit : damaged cuts (nextStart offset) = true
        · obtain ⟨cut, member, atCut, block⟩ := damaged_iff.mp hit
          obtain rfl : cut = nextStart offset :=
            Nat.le_antisymm atCut (startBefore cut member block.symm)
          refine site.scan_hit checks (fails _ member) hit member ?_
          refine givenUp (nextStart offset + fragment.size) site.tail _ member ?_ ?_
          · exact Nat.lt_add_of_pos_right fragment.size_pos
          · rw [nextBlock_eq]
            exact Nat.add_le_add_left site.fits.1 _
        · refine site.scan_spared (Bool.eq_false_iff.mpr hit) (onward _ site.tail ?_)
          intro cut member block
          rcases site.clear _ List.mem_cons_self cut member with inside | after
          · refine absurd (damaged_iff.mpr ⟨cut, member, inside, ?_⟩) hit
            unfold kBlockSize at *
            dsimp only at *
            omega
          · exact after
      refine ⟨alive, ?_⟩
      intro offset site cut member after before
      by_cases same : nextStart offset < nextBlock cut
      · have from_ := le_nextStart offset
        have block : nextStart offset / kBlockSize = cut / kBlockSize := by
          unfold nextBlock kBlockSize at *
          omega
        have hit : damaged cuts (nextStart offset) = true :=
          damaged_iff.mpr ⟨cut, member, by omega, block⟩
        have only : nextStart offset ∉ cuts := by
          intro other
          have := apart_unique apart member other block.symm
          omega
        have met : metAt config contents cuts (nextStart offset, fragment) = none := by
          rw [metAt, if_pos hit, if_neg only]
        rw [layout, List.filterMap_cons, met]
        apply givenUp _ site.tail cut member
        · omega
        · have inside := site.fits.1
          have ends : nextBlock cut = nextStart offset + room (nextStart offset) := by
            rw [← nextBlock_eq, nextBlock, nextBlock, block]
          rw [ends]
          exact Nat.add_le_add_left inside _
      · have boundary := nextStart_boundary (nextBlock_aligned cut) before (Nat.le_of_not_lt same)
        have moved : layout offset (fragment :: later) =
            layout (nextBlock cut) (fragment :: later) := by
          rw [layout, layout, boundary]
        rw [moved]
        apply alive _ (site.move boundary)
        intro other _ block
        unfold nextBlock kBlockSize at *
        omega

end

/-! ## Assembling what is left -/

/-- A place given up on ends the record under way. -/
theorem Assembly.decision_gap (assembly : Assembly) (stop : Nat) (drop : Option Drop) :
    ∃ reported next, (Event.bad stop drop).decision assembly = (reported, .again next) ∧
      next.Idle ∧ next.resyncing = false := by
  obtain ⟨resyncing, fragmented, prospective, scratch⟩ := assembly
  cases resyncing <;> cases fragmented <;> exact ⟨_, _, rfl, rfl, rfl⟩

section

variable (config : ReaderConfig) {expected : Nat × Fragment → Option Event}

/-- What is left at the place of a physical record: the record itself, a place that
is given up on, or nothing. -/
def Left (expected : Nat × Fragment → Option Event) (placed : Nat × Fragment) : Prop :=
  expected placed = some (Fragment.found placed) ∨
    (∃ stop drop, expected placed = some (.bad stop drop)) ∨ expected placed = none

/-- Where a record goes on, nothing is left only after the end of the file. -/
def EndsWhereMissing (expected : Nat × Fragment → Option Event)
    (placed : List (Nat × Fragment)) : Prop :=
  ∀ single ∈ placed, expected single = none →
    ∀ other ∈ placed, single.1 ≤ other.1 → expected other = none

/-- What is left of the end of a record makes no record, unless the record is under
way and nothing of it is missing. Afterwards no record is under way, except at the
end of the file. -/
theorem assemble_left {offset : Nat} {begins : Bool} {data : Slice} {fragments : List Fragment}
    (cut : Cuts offset begins data fragments) (later : List Event)
    (left : ∀ placed ∈ layout offset fragments, Left expected placed)
    (ends : EndsWhereMissing expected (layout offset fragments)) :
    ∀ assembly : Assembly, begins = false → assembly.resyncing = false →
      ¬ (assembly.inFragmentedRecord = true ∧
        ∀ placed ∈ layout offset fragments, expected placed = some (Fragment.found placed)) →
      ∃ next, next.resyncing = false ∧
        ((∀ placed ∈ layout offset fragments, expected placed ≠ none) → next.Idle) ∧
        (assemble config assembly ((layout offset fragments).filterMap expected ++ later)).1 =
          (assemble config next later).1 := by
  induction cut with
  | @ends offset begins data fits =>
      intro assembly notFirst synchronised lost
      subst notFirst
      simp only [layout, List.forall_mem_singleton] at left lost ⊢
      rw [List.filterMap_cons]
      rcases left with found | ⟨stop, drop, bad⟩ | missing
      · have idle : assembly.Idle := by
          rw [not_and] at lost
          exact Bool.eq_false_iff.mpr fun underWay => lost underWay found
        obtain ⟨reason, decided⟩ := @Assembly.decision_stray assembly ⟨.last, data⟩ (.inr rfl) idle
          synchronised (nextStart offset)
        change (Fragment.found (nextStart offset, ⟨fragmentType false true, data⟩)).decision
          assembly = _ at decided
        refine ⟨assembly, synchronised, fun _ => idle, ?_⟩
        simp only [found, List.filterMap_nil, List.cons_append, List.nil_append, assemble, decided]
      · obtain ⟨reported, next, decided, idle, nextSynchronised⟩ := assembly.decision_gap stop drop
        refine ⟨next, nextSynchronised, fun _ => idle, ?_⟩
        simp only [bad, List.filterMap_nil, List.cons_append, List.nil_append, assemble, decided]
      · refine ⟨assembly, synchronised, fun present => absurd missing present, ?_⟩
        simp only [missing, List.filterMap_nil, List.nil_append]
  | @goesOn offset begins data rest fragments fills cut ih =>
      intro assembly notFirst synchronised lost
      subst notFirst
      simp only [layout, List.forall_mem_cons] at left lost ⊢
      have restEnds : EndsWhereMissing expected
          (layout (nextStart offset + (kHeaderSize + data.length)) fragments) :=
        fun single member missing other inRest =>
          ends single (List.mem_cons_of_mem _ member) missing other (List.mem_cons_of_mem _ inRest)
      have onward := ih left.2 restEnds
      have present : ∀ {first : Prop} {rest : Prop} {next : Assembly}, (rest → next.Idle) →
          (first ∧ rest → next.Idle) := fun idle both => idle both.2
      rw [List.filterMap_cons]
      rcases left.1 with found | ⟨stop, drop, bad⟩ | missing
      · by_cases underWay : assembly.inFragmentedRecord = true
        · obtain ⟨drop, _, decided⟩ := @Assembly.decision_goesOn assembly false
            (fun _ => ⟨synchronised, underWay⟩) data (nextStart offset)
          obtain ⟨next, nextSynchronised, idle, assembled⟩ :=
            onward ⟨false, true, (assembly.extended false data (nextStart offset)).2,
              (assembly.extended false data (nextStart offset)).1⟩ rfl rfl
              (fun whole => lost ⟨underWay, found, whole.2⟩)
          refine ⟨next, nextSynchronised, present idle, ?_⟩
          simp only [found, List.cons_append, assemble, decided]
          exact assembled
        · have idle : assembly.Idle := Bool.eq_false_iff.mpr underWay
          obtain ⟨reason, decided⟩ := @Assembly.decision_stray assembly ⟨.middle, data⟩ (.inl rfl)
            idle synchronised (nextStart offset)
          change (Fragment.found (nextStart offset, ⟨fragmentType false false, data⟩)).decision
            assembly = _ at decided
          obtain ⟨next, nextSynchronised, nextIdle, assembled⟩ :=
            onward assembly rfl synchronised (fun whole => underWay whole.1)
          refine ⟨next, nextSynchronised, present nextIdle, ?_⟩
          simp only [found, List.cons_append, assemble, decided]
          exact assembled
      · obtain ⟨reported, after, decided, idle, afterSynchronised⟩ :=
          assembly.decision_gap stop drop
        obtain ⟨next, nextSynchronised, nextIdle, assembled⟩ :=
          onward after rfl afterSynchronised
            (fun whole => Bool.noConfusion (idle.symm.trans whole.1))
        refine ⟨next, nextSynchronised, present nextIdle, ?_⟩
        simp only [bad, List.cons_append, assemble, decided]
        exact assembled
      · have nothing : (layout (nextStart offset + (kHeaderSize + data.length))
            fragments).filterMap expected = [] := by
          apply List.filterMap_eq_nil_iff.mpr
          intro other member
          exact ends _ List.mem_cons_self missing other (List.mem_cons_of_mem _ member)
            (Nat.le_of_lt
              (@lt_of_mem_layout_tail offset ⟨fragmentType false false, data⟩ _ _ member))
        refine ⟨assembly, synchronised, fun both => absurd missing both.1, ?_⟩
        simp only [missing]
        rw [show (⟨fragmentType false false, data⟩ : Fragment).size = kHeaderSize + data.length
          from rfl, nothing, List.nil_append]

/-- What is left of a record some of which is missing makes no record. -/
theorem assemble_lost {entry : Entry} (later : List Event)
    (left : ∀ placed ∈ entry.placed, Left expected placed)
    (ends : EndsWhereMissing expected entry.placed.tail)
    (lost : ¬ ∀ placed ∈ entry.placed, expected placed = some (Fragment.found placed))
    {assembly : Assembly} (idle : assembly.Idle) (synchronised : assembly.resyncing = false) :
    ∃ next, next.resyncing = false ∧
      ((∀ placed ∈ entry.placed.tail, expected placed ≠ none) → next.Idle) ∧
      (assemble config assembly (entry.placed.filterMap expected ++ later)).1 =
        (assemble config next later).1 := by
  obtain ⟨record, offset, fragments, cut⟩ := entry
  simp only [Entry.placed] at left ends lost ⊢
  cases cut with
  | ends fits =>
      simp only [layout, List.forall_mem_singleton, List.filterMap_cons, List.filterMap_nil,
        List.tail_cons] at left lost ⊢
      rcases left with found | ⟨stop, drop, bad⟩ | missing
      · exact absurd found lost
      · obtain ⟨reported, next, decided, nextIdle, nextSynchronised⟩ :=
          assembly.decision_gap stop drop
        refine ⟨next, nextSynchronised, fun _ => nextIdle, ?_⟩
        simp only [bad, List.cons_append, List.nil_append, assemble, decided]
      · refine ⟨assembly, synchronised, fun _ => idle, ?_⟩
        simp only [missing, List.nil_append]
  | @goesOn _ _ data rest fragments fills cut =>
      simp only [layout, List.forall_mem_cons, List.tail_cons] at left ends lost ⊢
      have onward := assemble_left config cut later left.2 ends
      rw [List.filterMap_cons]
      rcases left.1 with found | ⟨stop, drop, bad⟩ | missing
      · obtain ⟨drop, _, decided⟩ := @Assembly.decision_goesOn assembly true assembly.ready_true
          data (nextStart offset)
        obtain ⟨next, nextSynchronised, nextIdle, assembled⟩ :=
          onward ⟨false, true, (assembly.extended true data (nextStart offset)).2,
            (assembly.extended true data (nextStart offset)).1⟩ rfl rfl
            (fun whole => lost ⟨found, whole.2⟩)
        refine ⟨next, nextSynchronised, nextIdle, ?_⟩
        simp only [found, List.cons_append, assemble, decided]
        exact assembled
      · obtain ⟨reported, after, decided, afterIdle, afterSynchronised⟩ :=
          assembly.decision_gap stop drop
        obtain ⟨next, nextSynchronised, nextIdle, assembled⟩ :=
          onward after rfl afterSynchronised
            (fun whole => Bool.noConfusion (afterIdle.symm.trans whole.1))
        refine ⟨next, nextSynchronised, nextIdle, ?_⟩
        simp only [bad, List.cons_append, assemble, decided]
        exact assembled
      · obtain ⟨next, nextSynchronised, nextIdle, assembled⟩ :=
          onward assembly rfl synchronised
            (fun whole => Bool.noConfusion (idle.symm.trans whole.1))
        refine ⟨next, nextSynchronised, nextIdle, ?_⟩
        simp only [missing]
        exact assembled

/-- Over a chain of entries of which something is left, the records of which
nothing is missing are found. -/
theorem assemble_entries {kept : Entry → Bool} {entries : List Entry}
    (left : ∀ entry ∈ entries, ∀ placed ∈ entry.placed, Left expected placed)
    (final : ∀ entry ∈ entries, ∀ single ∈ entry.placed.tail, expected single = none →
      ∀ other ∈ entries, ∀ placed ∈ other.placed, single.1 ≤ placed.1 → expected placed = none)
    (whole : ∀ entry ∈ entries, kept entry = true ↔
      ∀ placed ∈ entry.placed, expected placed = some (Fragment.found placed)) :
    ∀ {offset : Nat} {assembly : Assembly}, Chained offset entries → assembly.Idle →
      assembly.resyncing = false →
      (assemble config assembly (entries.flatMap fun entry => entry.placed.filterMap expected)).1 =
        (entries.filter kept).map fun entry => (entry.record, BitVec.ofNat 64 entry.start) := by
  induction entries with
  | nil =>
      intro offset assembly _ _ _
      rfl
  | cons entry later ih =>
      intro offset assembly chained idle synchronised
      obtain ⟨_, rest⟩ := chained
      have laterFinal := fun other (member : other ∈ later) single inTail missing third
          (inLater : third ∈ later) => final other (List.mem_cons_of_mem _ member) single inTail
            missing third (List.mem_cons_of_mem _ inLater)
      have wholeHere := whole entry List.mem_cons_self
      rw [List.forall_mem_cons] at left
      have onward := @ih left.2 laterFinal
        (fun other member => whole other (List.mem_cons_of_mem _ member))
      rw [List.flatMap_cons]
      by_cases all : kept entry = true
      · have found : entry.placed.filterMap expected = entry.placed.map Fragment.found := by
          rw [← List.filterMap_eq_map]
          apply List.filterMap_congr
          exact wholeHere.mp all
        obtain ⟨reports, _, assembled⟩ := assemble_cuts config entry.cut
          (later.flatMap fun entry => entry.placed.filterMap expected) assembly
          assembly.ready_true
        rw [found, Entry.placed, assembled, List.filter_cons, if_pos all, List.map_cons]
        exact congrArg _ (onward rest (Assembly.idle_fresh _) rfl)
      · have ends : EndsWhereMissing expected entry.placed.tail :=
          fun single inTail missing other inTail' before => final entry List.mem_cons_self single
            inTail missing entry List.mem_cons_self other (List.mem_of_mem_tail inTail') before
        obtain ⟨next, nextSynchronised, nextIdle, assembled⟩ := assemble_lost config
          (later.flatMap fun entry => entry.placed.filterMap expected) left.1 ends
          (fun found => all (wholeHere.mpr found)) idle synchronised
        rw [assembled, List.filter_cons, if_neg all]
        by_cases present : ∀ placed ∈ entry.placed.tail, expected placed ≠ none
        · exact onward rest (nextIdle present) nextSynchronised
        · -- the file has ended inside this entry
          simp only [not_forall, ne_eq, not_not] at present
          obtain ⟨single, inTail, missing⟩ := present
          have nothing : ∀ other ∈ later, ∀ placed ∈ other.placed, expected placed = none := by
            intro other member placed inOther
            have stop : single.1 + single.2.size ≤ entry.stop :=
              layout_stop_le (List.mem_of_mem_tail inTail)
            have start := (rest.le_offset member).trans (le_of_mem_layout inOther)
            exact final entry List.mem_cons_self single inTail missing other
              (List.mem_cons_of_mem _ member) placed inOther (by omega)
          have silent : (later.flatMap fun entry => entry.placed.filterMap expected) = [] := by
            rw [List.flatMap_eq_nil_iff]
            intro other member
            exact List.filterMap_eq_nil_iff.mpr (nothing other member)
          have lost : later.filter kept = [] := by
            apply List.filter_eq_nil_iff.mpr
            intro other member keptOther
            obtain ⟨placed, inOther, _⟩ := other.cut.head_mem
            have found := (whole other (List.mem_cons_of_mem _ member)).mp keptOther placed inOther
            rw [nothing other member placed inOther] at found
            cases found
          rw [silent, lost]
          rfl

end

/-! ## Damaged logs -/

/-- `offset` is the place of a header of the record: the first one follows the
trailer, the others each start a block inside of the record. -/
def Call.HeaderAt (call : Call) (offset : Nat) : Prop :=
  offset = call.start ∨
    (offset % kBlockSize = 0 ∧ call.start < offset ∧ offset < call.after)

/-- `contents` is the log with one region of each damaged block replaced, from a
physical record on, by bytes at which the checks of `ReadPhysicalRecord` fail. -/
structure Damage (log : List Call × WritableFile) (cuts : List Nat) (contents : Slice) :
    Prop where
  length : contents.length = log.2.contents.length
  boundary : ∀ cut ∈ cuts, ∃ call ∈ log.1, call.HeaderAt cut
  apart : cuts.Pairwise fun left right => left / kBlockSize < right / kBlockSize
  intact : ∀ offset, damaged cuts offset = false → contents[offset]? = log.2.contents[offset]?
  fails : ∀ cut ∈ cuts, Fails contents cut

/-- The bytes of the record lie outside of every damaged region. -/
def Call.spared (cuts : List Nat) (call : Call) : Bool :=
  cuts.all fun cut => decide (call.after ≤ cut ∨ nextBlock cut ≤ call.start)

theorem Entry.placed_of_headerAt {entry : Entry} {offset : Nat}
    (header : entry.call.HeaderAt offset) : ∃ placed ∈ entry.placed, placed.1 = offset := by
  rcases header with rfl | ⟨aligned, after, before⟩
  · exact entry.cut.head_mem
  · exact entry.cut.boundary aligned after before

section

variable {contents : Slice} {cuts : List Nat} {entries : List Entry}

/-- Different physical records of a layout do not overlap. -/
theorem layout_clear {offset : Nat} {fragments : List Fragment} {left right : Nat × Fragment}
    (inLeft : left ∈ layout offset fragments) (inRight : right ∈ layout offset fragments) :
    right.1 ≤ left.1 ∨ left.1 + left.2.size ≤ right.1 := by
  induction fragments generalizing offset with
  | nil => cases inLeft
  | cons fragment later ih =>
      rcases List.mem_cons.mp inLeft with rfl | leftLater <;>
        rcases List.mem_cons.mp inRight with rfl | rightLater
      · exact .inl (Nat.le_refl _)
      · exact .inr (le_of_mem_layout rightLater)
      · exact .inl (Nat.le_of_lt (lt_of_mem_layout_tail leftLater))
      · exact ih leftLater rightLater

/-- A damaged region begins with a physical record. -/
theorem Damage.cut_placed {log : List Call × WritableFile} (damage : Damage log cuts contents)
    (calls : log.1 = entries.map Entry.call) {cut : Nat} (member : cut ∈ cuts) :
    ∃ entry ∈ entries, ∃ placed ∈ entry.placed, placed.1 = cut := by
  obtain ⟨call, inCalls, header⟩ := damage.boundary cut member
  rw [calls] at inCalls
  obtain ⟨entry, inEntries, rfl⟩ := List.mem_map.mp inCalls
  exact ⟨entry, inEntries, Entry.placed_of_headerAt header⟩

/-- The damaged log, as the reader is going to meet it. -/
theorem Damage.site {log : List Call × WritableFile} (damage : Damage log cuts contents)
    (calls : log.1 = entries.map Entry.call)
    (written : log.2.contents = encodeFrom 0 (fragmentsOf entries)) (chained : Chained 0 entries) :
    Site contents cuts 0 (fragmentsOf entries) := by
  have clear : ∀ placed ∈ layout 0 (fragmentsOf entries), ∀ cut ∈ cuts,
      cut ≤ placed.1 ∨ placed.1 + placed.2.size ≤ cut := by
    intro placed member cut inCuts
    obtain ⟨entry, inEntries, other, inEntry, rfl⟩ := damage.cut_placed calls inCuts
    apply layout_clear member
    rw [chained.layout]
    exact List.mem_flatMap.mpr ⟨entry, inEntries, inEntry⟩
  refine ⟨chained.typed, chained.fits, ?_, ?_, clear⟩
  · rw [damage.length, written, ← length_encodeFrom, Nat.zero_add]
  · intro placed member spared
    have inside : placed.2.size ≤ room placed.1 := fits_of_mem_layout chained.fits member
    have original := encodeFrom_at member
    rw [Nat.sub_zero, ← written] at original
    rw [← original]
    apply List.ext_getElem?
    intro index
    by_cases within : index < placed.2.size
    · rw [List.getElem?_take_of_lt within, List.getElem?_take_of_lt within, List.getElem?_drop,
        List.getElem?_drop]
      apply damage.intact
      apply Bool.eq_false_iff.mpr
      intro hit
      obtain ⟨cut, inCuts, before, block⟩ := damaged_iff.mp hit
      refine Bool.eq_false_iff.mp spared (damaged_iff.mpr ⟨cut, inCuts, ?_, ?_⟩)
      · rcases clear placed member cut inCuts with inFront | behind
        · exact inFront
        · omega
      · rw [← block]
        unfold room kBlockSize at *
        omega
    · rw [List.getElem?_eq_none (by rw [List.length_take]; omega),
        List.getElem?_eq_none (by rw [List.length_take]; omega)]

section

variable (site : Site contents cuts 0 (fragmentsOf entries)) (chained : Chained 0 entries)
  (apart : cuts.Pairwise fun left right => left / kBlockSize < right / kBlockSize)
  (fails : ∀ cut ∈ cuts, Fails contents cut) (reporter : Bool)

include site chained in
theorem Site.inside {entry : Entry} (member : entry ∈ entries) {placed : Nat × Fragment}
    (inEntry : placed ∈ entry.placed) :
    placed.1 + placed.2.size ≤ contents.length ∧
      kHeaderSize ≤ (bufferAt contents placed.1).length := by
  have ends : placed.1 + placed.2.size ≤ contents.length := by
    rw [site.length]
    exact (layout_stop_le inEntry).trans (chained.stop_le member)
  have header := layout_room inEntry
  refine ⟨ends, ?_⟩
  rw [bufferAt, List.length_take, List.length_drop]
  unfold Fragment.size at ends
  omega

theorem metAt_spared {placed : Nat × Fragment} (spared : ¬ damaged cuts placed.1 = true) :
    metAt ⟨reporter, true, 0⟩ contents cuts placed = some (Fragment.found placed) := by
  rw [metAt, if_neg spared, Fragment.event_eq_found (by simp)]

include site chained fails in
/-- At the place of a damaged physical record the reader gives up on the rest of
the block, or meets nothing. -/
theorem metAt_damaged {entry : Entry} (member : entry ∈ entries) {placed : Nat × Fragment}
    (inEntry : placed ∈ entry.placed) (hit : damaged cuts placed.1 = true) :
    (∃ stop drop, metAt ⟨reporter, true, 0⟩ contents cuts placed = some (.bad stop drop)) ∨
      (metAt ⟨reporter, true, 0⟩ contents cuts placed = none ∧
        (placed.1 ∈ cuts → contents.length < placed.1 + room placed.1)) := by
  rw [metAt, if_pos hit]
  by_cases begins : placed.1 ∈ cuts
  · rw [if_pos begins]
    have checked := @parseAt_fails ⟨reporter, true, 0⟩ rfl contents placed.1
      (fails _ begins) (site.inside chained member inEntry).2
    rcases checked with ⟨ended, short⟩ | ⟨drop, bad⟩
    · exact .inr ⟨ended, fun _ => short⟩
    · exact .inl ⟨_, drop, bad⟩
  · rw [if_neg begins]
    exact .inr ⟨rfl, fun absurd => (begins absurd).elim⟩

include site chained fails in
theorem left_metAt : ∀ entry ∈ entries, ∀ placed ∈ entry.placed,
    Left (metAt ⟨reporter, true, 0⟩ contents cuts) placed := by
  intro entry member placed inEntry
  by_cases hit : damaged cuts placed.1 = true
  · rcases metAt_damaged site chained fails reporter member inEntry hit with bad | ⟨missing, _⟩
    · exact .inr (.inl bad)
    · exact .inr (.inr missing)
  · exact .inl (metAt_spared reporter hit)

theorem lt_of_mem_tail {offset : Nat} {fragments : List Fragment} {placed : Nat × Fragment}
    (member : placed ∈ (layout offset fragments).tail) : nextStart offset < placed.1 := by
  cases fragments with
  | nil => cases member
  | cons fragment later => exact lt_of_mem_layout_tail member

include site chained apart fails in
/-- A physical record that goes on with a record starts a block. When nothing is
met there, the file ends in that block. -/
theorem final_metAt : ∀ entry ∈ entries, ∀ single ∈ entry.placed.tail,
    metAt ⟨reporter, true, 0⟩ contents cuts single = none →
    ∀ other ∈ entries, ∀ placed ∈ other.placed, single.1 ≤ placed.1 →
      metAt ⟨reporter, true, 0⟩ contents cuts placed = none := by
  intro entry member single inTail missing other otherMember placed inOther after
  have inEntry := List.mem_of_mem_tail inTail
  have aligned : single.1 % kBlockSize = 0 := entry.cut.aligned inEntry (lt_of_mem_tail inTail)
  have hit : damaged cuts single.1 = true := by
    by_contra spared
    rw [metAt_spared reporter spared] at missing
    cases missing
  obtain ⟨cut, inCuts, before, block⟩ := damaged_iff.mp hit
  obtain rfl : cut = single.1 := by
    unfold kBlockSize at *
    omega
  have short : contents.length < single.1 + room single.1 := by
    rcases metAt_damaged site chained fails reporter member inEntry hit with
      ⟨stop, drop, bad⟩ | ⟨_, short⟩
    · rw [bad] at missing
      cases missing
    · exact short inCuts
  have ends := (site.inside chained otherMember inOther).1
  have size := placed.2.size_pos
  have same : placed.1 / kBlockSize = single.1 / kBlockSize := by
    unfold room kBlockSize at *
    omega
  have otherHit : damaged cuts placed.1 = true := damaged_iff.mpr ⟨_, inCuts, after, same⟩
  rw [metAt, if_pos otherHit]
  by_cases begins : placed.1 ∈ cuts
  · rw [if_pos begins]
    have here := apart_unique apart begins inCuts same
    rw [metAt, if_pos hit, if_pos inCuts, ← here] at missing
    exact missing
  · exact if_neg begins

include site chained fails in
/-- Nothing of a record is missing exactly when it lies outside of every damaged
region. -/
theorem spared_iff : ∀ entry ∈ entries, entry.call.spared cuts = true ↔
    ∀ placed ∈ entry.placed,
      metAt ⟨reporter, true, 0⟩ contents cuts placed = some (Fragment.found placed) := by
  intro entry member
  rw [Call.spared, List.all_eq_true]
  constructor
  · intro spared placed inEntry
    apply metAt_spared
    intro hit
    obtain ⟨cut, inCuts, before, block⟩ := damaged_iff.mp hit
    have start : entry.start ≤ placed.1 := nextStart_le_of_mem_layout inEntry
    have stop : placed.1 + placed.2.size ≤ entry.stop := layout_stop_le inEntry
    have size := placed.2.size_pos
    rcases of_decide_eq_true (spared cut inCuts) with after | ahead
    · have : entry.stop ≤ cut := after
      omega
    · have : nextBlock cut ≤ entry.start := ahead
      unfold nextBlock kBlockSize at *
      omega
  · intro found cut inCuts
    apply decide_eq_true
    by_contra overlap
    have lost : ∀ placed ∈ entry.placed, ¬ (cut ≤ placed.1 ∧ placed.1 < nextBlock cut) := by
      rintro placed inEntry ⟨before, inBlock⟩
      have block : placed.1 / kBlockSize = cut / kBlockSize := by
        unfold nextBlock kBlockSize at *
        omega
      have kept := found placed inEntry
      rcases metAt_damaged site chained fails reporter member inEntry
        (damaged_iff.mpr ⟨cut, inCuts, before, block⟩) with ⟨stop, drop, bad⟩ | ⟨missing, _⟩
      · rw [bad] at kept
        cases kept
      · rw [missing] at kept
        cases kept
    have stop : ¬ entry.stop ≤ cut := fun after => overlap (.inl after)
    have start : ¬ nextBlock cut ≤ entry.start := fun ahead => overlap (.inr ahead)
    by_cases inFront : cut ≤ entry.start
    · obtain ⟨placed, inEntry, here⟩ := entry.cut.head_mem
      have here : placed.1 = entry.start := here
      exact lost placed inEntry ⟨by omega, by omega⟩
    · obtain ⟨placed, inEntry, before, after⟩ :=
        entry.cut.covers (Nat.le_of_not_le inFront) (Nat.lt_of_not_le stop)
      have inLayout : placed ∈ layout 0 (fragmentsOf entries) := by
        rw [chained.layout]
        exact List.mem_flatMap.mpr ⟨entry, member, inEntry⟩
      have room := room_pos cut
      have next := nextBlock_eq cut
      rcases site.clear placed inLayout cut inCuts with within | behind
      · exact lost placed inEntry ⟨within, by omega⟩
      · omega

end

/-! ## Reports -/

/-- What the reader has to report about a damaged block: the bytes it gives up on,
with the check that failed. Blocks of zeros, and the last block when it is not
full, need not be reported. -/
def alarm (contents : Slice) (cut : Nat) : List Report :=
  if contents.length < cut + room cut then []
  else if kHeaderSize + Reader.headerLength (bufferAt contents cut) >
      (bufferAt contents cut).length then
    [((bufferAt contents cut).length, .corruption "bad record length")]
  else if Reader.headerType (bufferAt contents cut) = RecordType.zero.code ∧
      Reader.headerLength (bufferAt contents cut) = 0 then
    []
  else
    [((bufferAt contents cut).length, .corruption "checksum mismatch")]

/-- Without a premature end, everything `ReadPhysicalRecord` reports is among the
reports. -/
theorem reports_sublist_assemble (config : ReaderConfig) {events : List Event}
    (open_ : ∀ event ∈ events, event.type ≠ kEof) :
    ∀ assembly : Assembly,
      (events.flatMap (Event.reports config)).Sublist (assemble config assembly events).2 := by
  induction events with
  | nil =>
      intro assembly
      exact List.Sublist.refl _
  | cons event later ih =>
      intro assembly
      rw [List.forall_mem_cons] at open_
      have onward := ih open_.2
      rw [List.flatMap_cons]
      simp only [assemble]
      cases verdict : (event.decision assembly).2 with
      | again next =>
          exact (List.sublist_append_left _ _).append (onward next)
      | found record offset next =>
          exact (List.sublist_append_left _ _).append (onward _)
      | stop next => exact absurd (event.stop_type verdict) open_.1

/-- The report of a damaged block is made where the damage begins. -/
theorem alarm_sublist (contents : Slice) (cut : Nat) (fails : Fails contents cut)
    (enough : kHeaderSize ≤ (bufferAt contents cut).length) :
    (alarm contents cut).Sublist
      ((parseAt ⟨true, true, 0⟩ cut (contents.drop cut)).elim []
        (Event.reports ⟨true, true, 0⟩)) := by
  have buffer : (contents.drop cut).take (room cut) = bufferAt contents cut := rfl
  have heard : ∀ position bytes reason,
      ReaderConfig.report ⟨true, true, 0⟩ position (some (bytes, reason)) =
        [(bytes, .corruption reason)] := by
    intro position bytes reason
    rw [ReaderConfig.report, if_pos]
    refine ⟨rfl, ?_⟩
    rw [ge_iff_le, BitVec.le_def]
    exact Nat.zero_le _
  unfold alarm
  by_cases short : contents.length < cut + room cut
  · rw [if_pos short]
    exact List.nil_sublist _
  · have whole : ¬ (contents.drop cut).length < room cut := by
      rw [List.length_drop]
      have := room_pos cut
      omega
    simp only [if_neg short, parseAt, buffer, enough.not_gt, ↓reduceIte, if_neg whole,
      Bool.true_and]
    by_cases long : kHeaderSize + Reader.headerLength (bufferAt contents cut) >
        (bufferAt contents cut).length
    · simp only [if_pos long, Option.elim_some, Event.reports, heard, List.Sublist.refl]
    · simp only [if_neg long]
      by_cases zero : Reader.headerType (bufferAt contents cut) = RecordType.zero.code ∧
          Reader.headerLength (bufferAt contents cut) = 0
      · simp only [if_pos zero, List.nil_sublist]
      · have mismatch : (!Reader.checksumMatches (bufferAt contents cut)) = true := by
          rcases fails with absurd | absurd | mismatch
          · exact (long absurd).elim
          · exact (zero absurd).elim
          · rw [mismatch]
            rfl
        simp only [if_neg zero, if_pos mismatch, Option.elim_some, Event.reports, heard,
          List.Sublist.refl]

/-- Flattening over what a partial function gives. -/
theorem flatMap_filterMap {α β γ : Type} (items : List α) (given : α → Option β)
    (flat : β → List γ) :
    (items.filterMap given).flatMap flat = items.flatMap fun item => (given item).elim [] flat := by
  induction items with
  | nil => rfl
  | cons item later ih =>
      rw [List.filterMap_cons, List.flatMap_cons]
      cases result : given item with
      | none => exact ih
      | some value =>
          rw [List.flatMap_cons, ih]
          rfl

/-- The damaged regions begin at physical records, in order. -/
theorem cuts_sublist {placed : List (Nat × Fragment)}
    (apart : cuts.Pairwise fun left right => left / kBlockSize < right / kBlockSize)
    (increasing : placed.Pairwise fun left right => left.1 < right.1)
    (begin_ : ∀ cut ∈ cuts, ∃ single ∈ placed, single.1 = cut) :
    cuts.Sublist (placed.map Prod.fst) := by
  have strict : cuts.Pairwise (· < ·) := apart.imp fun {left right} less => by
    unfold kBlockSize at less
    omega
  refine List.sublist_of_subperm_of_pairwise (r := (· ≤ ·)) ?_ (strict.imp Nat.le_of_lt)
    ((List.pairwise_map.mpr increasing).imp Nat.le_of_lt)
  refine List.subperm_of_subset (strict.imp Nat.ne_of_lt) ?_
  intro cut member
  obtain ⟨single, inPlaced, rfl⟩ := begin_ cut member
  exact List.mem_map.mpr ⟨single, inPlaced, rfl⟩

end

/-- Corruption stays contained. Over a log with any set of blocks damaged from a
physical record on, a checksumming reader returns exactly the records that lie
outside of the damaged regions, in order, and reports every damaged block whose
length or checksum check fails, the last one apart when it is not full. -/
theorem readAll_contains_damage (sessions : List (List Slice)) (cuts : List Nat)
    (contents : Slice) (reporter : Bool) (pastEnd : Status)
    (damage : Damage (writeSessions emptyFile sessions) cuts contents) :
    let log := writeSessions emptyFile sessions
    let read := (Reader.new (toRead contents pastEnd) ⟨reporter, true, 0⟩).readAll
    read.1.map Prod.fst = (log.1.filter (Call.spared cuts)).map Call.record ∧
      (reporter = true → (cuts.flatMap (alarm contents)).Sublist read.2.reports) := by
  intro log read
  obtain ⟨entries, adds⟩ := writeSessions_adds sessions emptyFile rfl
  have calls : log.1 = entries.map Entry.call := adds.calls
  have chained : Chained 0 entries := adds.chained
  have site := damage.site calls adds.contents chained
  have events : scan ⟨reporter, true, 0⟩ 0 contents =
      entries.flatMap fun entry =>
        entry.placed.filterMap (metAt ⟨reporter, true, 0⟩ contents cuts) := by
    have scanned := (@scan_site ⟨reporter, true, 0⟩ rfl contents cuts damage.apart damage.fails
      (fragmentsOf entries)).1 0 site (fun _ _ _ => Nat.zero_le _)
    rw [List.drop_zero, chained.layout, List.filterMap_flatMap] at scanned
    exact scanned
  have left := left_metAt site chained damage.fails reporter
  obtain ⟨records, reports, _⟩ :=
    Reader.readAll_new_zero (toRead contents pastEnd) reporter true rfl
  rw [toRead, events] at records reports
  constructor
  · rw [calls, List.filter_map, List.map_map]
    have found := assemble_entries ⟨reporter, true, 0⟩ left
      (final_metAt site chained damage.apart damage.fails reporter)
      (spared_iff site chained damage.fails reporter) chained (Assembly.idle_fresh false) rfl
    exact (congrArg (List.map Prod.fst) (records.trans found)).trans (List.map_map ..)
  · rintro rfl
    have open_ : ∀ event ∈ entries.flatMap (fun entry =>
        entry.placed.filterMap (metAt ⟨true, true, 0⟩ contents cuts)), event.type ≠ kEof := by
      intro event member
      obtain ⟨entry, inEntries, inEntry⟩ := List.mem_flatMap.mp member
      obtain ⟨placed, inPlaced, met⟩ := List.mem_filterMap.mp inEntry
      rcases left entry inEntries placed inPlaced with found | ⟨stop, drop, bad⟩ | missing
      · cases met.symm.trans found
        exact RecordType.code_ne_kEof _
      · cases met.symm.trans bad
        exact (by decide : kBadRecord ≠ kEof)
      · cases met.symm.trans missing
    have increasing : (entries.flatMap Entry.placed).Pairwise fun left right => left.1 < right.1 :=
      chained.layout ▸ layout_increasing 0 (fragmentsOf entries)
    have placed : ∀ cut ∈ cuts, ∃ single ∈ entries.flatMap Entry.placed, single.1 = cut := by
      intro cut member
      obtain ⟨entry, inEntries, single, inEntry, here⟩ := damage.cut_placed calls member
      exact ⟨single, List.mem_flatMap.mpr ⟨entry, inEntries, inEntry⟩, here⟩
    have heard := reports_sublist_assemble ⟨true, true, 0⟩ open_ (.fresh false)
    rw [← List.filterMap_flatMap] at heard reports
    rw [flatMap_filterMap] at heard
    have alarms : ∀ single ∈ entries.flatMap Entry.placed,
        (if single.1 ∈ cuts then alarm contents single.1 else []).Sublist
          ((metAt ⟨true, true, 0⟩ contents cuts single).elim []
            (Event.reports ⟨true, true, 0⟩)) := by
      intro single member
      obtain ⟨entry, inEntries, inEntry⟩ := List.mem_flatMap.mp member
      by_cases begins : single.1 ∈ cuts
      · have hit : damaged cuts single.1 = true :=
          damaged_iff.mpr ⟨_, begins, Nat.le_refl _, rfl⟩
        rw [if_pos begins, metAt, if_pos hit, if_pos begins]
        exact alarm_sublist contents _ (damage.fails _ begins)
          (site.inside chained inEntries inEntry).2
      · rw [if_neg begins]
        exact List.nil_sublist _
    have same : cuts.flatMap (alarm contents) =
        cuts.flatMap fun cut => if cut ∈ cuts then alarm contents cut else [] :=
      List.flatMap_congr fun cut member => (if_pos member).symm
    change (cuts.flatMap (alarm contents)).Sublist (Reader.readAll _).2.reports
    rw [same]
    refine ((cuts_sublist damage.apart increasing placed).flatMap _).trans ?_
    rw [List.flatMap_map]
    refine ((List.Sublist.flatMap_right _ alarms).trans heard).trans ?_
    rw [← reports]
    exact List.Sublist.refl _

/-- Three records, of which the second ends one byte before its block does. -/
def threeRecords : List Slice := [[0x61#8], List.replicate 32752 0x62#8, [0x63#8]]

/-- Where the three records are. -/
theorem threeRecords_entries : ∃ first second third,
    Adds emptyFile (writeSessions emptyFile [threeRecords]).2
      (writeSessions emptyFile [threeRecords]).1 [first, second, third] ∧
    [first, second, third].map Entry.record = threeRecords ∧
    first.stop = 8 ∧ second.start = 8 ∧ second.stop = 32767 ∧ third.start = 32768 ∧
      third.stop = 32776 := by
  obtain ⟨entries, adds, records⟩ := writeSessions_entries threeRecords
  obtain ⟨first, rest, rfl, one, others⟩ := List.map_eq_cons_iff.mp records
  obtain ⟨second, rest, rfl, two, others⟩ := List.map_eq_cons_iff.mp others
  obtain ⟨third, rfl, three⟩ := List.map_eq_singleton_iff.mp others
  obtain ⟨offset, next, last, -⟩ := adds.chained
  have firstStart : first.start = 0 := by
    rw [Entry.start, offset]
    decide
  have firstStop : first.stop = 8 := by
    have short := first.stop_of_short
    rw [one, firstStart] at short
    exact short (by decide)
  have secondStart : second.start = 8 := by
    rw [Entry.start, next, firstStop]
    decide
  have secondStop : second.stop = 32767 := by
    have short := second.stop_of_short
    rw [two, secondStart, List.length_replicate] at short
    exact short (by decide)
  have thirdStart : third.start = 32768 := by
    rw [Entry.start, last, secondStop]
    decide
  have thirdStop : third.stop = 32776 := by
    have short := third.stop_of_short
    rw [three, thirdStart] at short
    exact short (by decide)
  exact ⟨first, second, third, adds, records, firstStop, secondStart, secondStop, thirdStart,
    thirdStop⟩

/-- The log of the three records, overwritten from the second one on to the end of its
block. -/
def overwritten : Slice :=
  let log := (writeSessions emptyFile [threeRecords]).2.contents
  log.take 8 ++ (List.replicate 32760 0xff#8 ++ log.drop 32768)

theorem overwritten_lengths :
    (writeSessions emptyFile [threeRecords]).2.contents.length = 32776 ∧
      ((writeSessions emptyFile [threeRecords]).2.contents.take 8).length = 8 ∧
      overwritten.length = 32776 := by
  obtain ⟨first, second, third, adds, -, -, -, -, -, stop⟩ := threeRecords_entries
  have length : (writeSessions emptyFile [threeRecords]).2.contents.length = 32776 := by
    rw [adds.length, adds.chained.endOffset_cons, adds.chained.2.endOffset_cons,
      ← adds.chained.2.2.1, endOffset_single, stop]
  have head : ((writeSessions emptyFile [threeRecords]).2.contents.take 8).length = 8 := by
    rw [List.length_take, length]
    rfl
  refine ⟨length, head, ?_⟩
  rw [overwritten, List.length_append, head, List.length_append, List.length_replicate,
    List.length_drop, length]

/-- The header that is met there is too long for the block. -/
theorem overwritten_long :
    bufferAt overwritten 8 = List.replicate 32760 0xff#8 ∧
      kHeaderSize + Reader.headerLength (bufferAt overwritten 8) >
        (bufferAt overwritten 8).length := by
  have space : room 8 = 32760 := by decide
  have buffer : bufferAt overwritten 8 = List.replicate 32760 0xff#8 := by
    rw [bufferAt, space, overwritten, List.drop_left' overwritten_lengths.2.1,
      List.take_left' List.length_replicate]
  have field : Reader.headerLength (List.replicate 32760 0xff#8) = 65535 := by
    simp only [Reader.headerLength, List.getD_eq_getElem?_getD, List.getElem?_replicate]
    decide
  refine ⟨buffer, ?_⟩
  rw [buffer, field, List.length_replicate]
  decide

theorem overwritten_damage : Damage (writeSessions emptyFile [threeRecords]) [8] overwritten := by
  obtain ⟨length, head, size⟩ := overwritten_lengths
  refine ⟨size.trans length.symm, ?_, List.pairwise_singleton _ _, ?_, ?_⟩
  · intro cut member
    obtain ⟨first, second, third, adds, -, -, start, -⟩ := threeRecords_entries
    rw [List.mem_singleton.mp member, adds.calls]
    exact ⟨second.call, List.mem_cons_of_mem _ List.mem_cons_self, .inl start.symm⟩
  · intro place spared
    have outside : place < 8 ∨ 32768 ≤ place := by
      by_contra inside
      refine Bool.eq_false_iff.mp spared (damaged_iff.mpr ⟨8, List.mem_cons_self, ?_, ?_⟩)
      · omega
      · unfold kBlockSize
        omega
    rw [overwritten]
    rcases outside with before | behind
    · rw [List.getElem?_append_left (by rw [head]; exact before), List.getElem?_take,
        if_pos before]
    · rw [List.getElem?_append_right (by rw [head]; omega), head,
        List.getElem?_append_right (by rw [List.length_replicate]; omega),
        List.length_replicate, List.getElem?_drop, Nat.sub_sub, Nat.add_sub_cancel' behind]
  · intro cut member
    rw [List.mem_singleton.mp member]
    exact .inl overwritten_long.2

/-- The first and the third record are returned, and the reader reports what it gave up on. -/
theorem readAll_contains_damage_overwritten :
    Damage (writeSessions emptyFile [threeRecords]) [8] overwritten ∧
      let read := (Reader.new (toRead overwritten .ok) ⟨true, true, 0⟩).readAll
      read.1.map Prod.fst = [[0x61#8], [0x63#8]] ∧
        (32760, Status.corruption "bad record length") ∈ read.2.reports := by
  obtain ⟨first, second, third, adds, records, firstStop, secondStart, secondStop, thirdStart,
    -⟩ := threeRecords_entries
  obtain ⟨-, -, size⟩ := overwritten_lengths
  obtain ⟨buffer, long⟩ := overwritten_long
  obtain ⟨returned, heard⟩ :=
    readAll_contains_damage [threeRecords] [8] overwritten true .ok overwritten_damage
  refine ⟨overwritten_damage, ?_, ?_⟩
  · have next : nextBlock 8 = 32768 := by decide
    have spared : [first.call, second.call, third.call].filter (Call.spared [8]) =
        [first.call, third.call] := by
      simp only [List.filter_cons, Call.spared, List.all_cons, List.all_nil, Bool.and_true,
        decide_eq_true_eq, next, show first.call.after = 8 from firstStop,
        show second.call.after = 32767 from secondStop,
        show second.call.start = 8 from secondStart,
        show third.call.start = 32768 from thirdStart]
      rw [if_pos (.inl (Nat.le_refl 8)), if_neg (by decide), if_pos (.inr (Nat.le_refl 32768)),
        List.filter_nil]
    obtain ⟨one, others⟩ := List.cons.inj records
    obtain ⟨-, three⟩ := List.cons.inj others
    rw [adds.calls] at returned
    refine returned.trans ((congrArg (List.map Call.record) spared).trans ?_)
    exact congrArg₂ (fun left right => [left, right]) one (List.cons.inj three).1
  · apply (heard rfl).subset
    have space : room 8 = 32760 := by decide
    rw [List.flatMap_singleton, alarm, size, space, if_neg (by decide), if_pos long, buffer,
      List.length_replicate]
    exact List.mem_singleton_self _

end MiniLevelDb.Log
