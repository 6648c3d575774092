import MiniLevelDb.Db.SkipListLayers
import MiniLevelDb.Util.RandomUniform

/-!
# Heights that are drawn

The skip list with its own generator, as it is constructed. Every level above the first one
that a node has is a draw that succeeded, and a node that is not of the greatest height has
cost one more draw, which failed.
-/

namespace MiniLevelDb

open Foundation Function

namespace SkipList

def kBranching : BitVec 32 := 4

/-- The loop of `RandomHeight`, over `rnd_`. -/
def randomHeightLoop : Nat → Nat → Random → Nat × Random
  | 0, height, rnd => (height, rnd)
  | left + 1, height, rnd =>
      let (more, rnd) := rnd.oneIn kBranching
      if more then randomHeightLoop left (height + 1) rnd else (height, rnd)

/-- `RandomHeight`, and what it leaves in `rnd_`. -/
def randomHeight (rnd : Random) : Nat × Random := randomHeightLoop (kMaxHeight - 1) 1 rnd

/-- A list with its generator. -/
structure Seeded (Key : Type) where
  list : SkipList Key
  rnd : Random

namespace Seeded

variable {Key : Type}

/-- The constructor. -/
def new : Option (Seeded Key) := do
  let list ← SkipList.new
  some ⟨list, Random.new 0xdeadbeef⟩

/-- `Insert`. -/
def insert (compare : Key → Key → Int) (seeded : Seeded Key) (key : Key) :
    Option (Seeded Key) := do
  let drawn := randomHeight seeded.rnd
  let list ← SkipList.insert compare seeded.list key drawn.1
  some ⟨list, drawn.2⟩

def insertAll (compare : Key → Key → Int) (keys : List Key) : Option (Seeded Key) := do
  keys.foldlM (insert compare) (← new)

end Seeded

/-- How many of the next draws succeed. -/
def hits : Nat → Random → Nat
  | 0, _ => 0
  | draws + 1, rnd => (if (rnd.oneIn kBranching).1 then 1 else 0) + hits draws rnd.next.2

theorem hits_add (draws more : Nat) (rnd : Random) :
    hits (draws + more) rnd = hits draws rnd + hits more (Random.advance^[draws] rnd) := by
  induction draws generalizing rnd with
  | zero => rw [Nat.zero_add, hits, Nat.zero_add, iterate_zero, id]
  | succ draws ih =>
      rw [Nat.succ_add, hits, hits, ih, iterate_succ_apply, Nat.add_assoc, Random.advance]

theorem hits_eq_card (draws : Nat) (rnd : Random) :
    hits draws rnd = ((Finset.range draws).filter fun count =>
      ((Random.advance^[count] rnd).oneIn kBranching).1 = true).card := by
  rw [Finset.card_filter]
  induction draws generalizing rnd with
  | zero => rfl
  | succ draws ih =>
      rw [hits, ih, Finset.sum_range_succ', Nat.add_comm]
      simp only [iterate_succ_apply, iterate_zero, id, Random.advance]
      rfl

/-- The draws of one height: one for each level above, and one that fails unless no more
levels are left. -/
theorem randomHeightLoop_spec (left height : Nat) (rnd : Random) :
    ∃ above, (randomHeightLoop left height rnd).1 = height + above ∧ above ≤ left ∧
      (randomHeightLoop left height rnd).2 = Random.advance^[min (above + 1) left] rnd ∧
      hits (min (above + 1) left) rnd = above := by
  induction left generalizing height rnd with
  | zero => exact ⟨0, rfl, Nat.le_refl 0, rfl, rfl⟩
  | succ left ih =>
      by_cases hit : (rnd.oneIn kBranching).1 = true
      · obtain ⟨above, drawn, within, later, counted⟩ := ih (height + 1) rnd.next.2
        have step : randomHeightLoop (left + 1) height rnd =
            randomHeightLoop left (height + 1) rnd.next.2 := if_pos hit
        have draws : min (above + 1 + 1) (left + 1) = min (above + 1) left + 1 :=
          Nat.add_min_add_right ..
        refine ⟨above + 1, ?_, Nat.succ_le_succ within, ?_, ?_⟩
        · rw [step, drawn, Nat.add_right_comm, Nat.add_assoc]
        · rw [step, later, draws, iterate_succ_apply, Random.advance]
        · rw [draws, hits, if_pos hit, counted, Nat.add_comm]
      · have step : randomHeightLoop (left + 1) height rnd = (height, rnd.next.2) := if_neg hit
        have draws : min (0 + 1) (left + 1) = 1 := Nat.min_eq_left (Nat.succ_pos left)
        refine ⟨0, ?_, Nat.zero_le _, ?_, ?_⟩
        · rw [step, Nat.add_zero]
        · rw [step, draws, iterate_one, Random.advance]
        · rw [draws, hits, if_neg hit]
          rfl

/-- A node has been drawn as often as it has levels, only that the greatest height is reached
without the last draw. -/
def draws (height : Nat) : Nat := min height (kMaxHeight - 1)

/-- The assertions of `RandomHeight` hold, and the generator has moved by the draws it took. -/
theorem randomHeight_spec (rnd : Random) :
    (0 < (randomHeight rnd).1 ∧ (randomHeight rnd).1 ≤ kMaxHeight) ∧
      (randomHeight rnd).2 = Random.advance^[draws (randomHeight rnd).1] rnd ∧
      hits (draws (randomHeight rnd).1) rnd = (randomHeight rnd).1 - 1 := by
  obtain ⟨above, drawn, within, later, counted⟩ := randomHeightLoop_spec (kMaxHeight - 1) 1 rnd
  rw [randomHeight, drawn, Nat.add_sub_cancel_left, draws, Nat.add_comm 1 above]
  refine ⟨⟨Nat.succ_pos above, ?_⟩, later, counted⟩
  exact Nat.succ_le_succ within

/-- A run of keys with the heights that are drawn for them. -/
def drawHeights (rnd : Random) : List Key → List (Key × Nat) × Random
  | [] => ([], rnd)
  | key :: rest =>
      let drawn := randomHeight rnd
      let later := drawHeights drawn.2 rest
      ((key, drawn.1) :: later.1, later.2)

theorem drawHeights_spec (rnd : Random) (keys : List Key) :
    (drawHeights rnd keys).1.map Prod.fst = keys ∧
      (∀ call ∈ (drawHeights rnd keys).1, 0 < call.2 ∧ call.2 ≤ kMaxHeight) ∧
      (drawHeights rnd keys).2 =
        Random.advance^[((drawHeights rnd keys).1.map fun call => draws call.2).sum] rnd ∧
      hits ((drawHeights rnd keys).1.map fun call => draws call.2).sum rnd =
        ((drawHeights rnd keys).1.map fun call => call.2 - 1).sum := by
  induction keys generalizing rnd with
  | nil => exact ⟨rfl, by simp [drawHeights], rfl, rfl⟩
  | cons key rest ih =>
      obtain ⟨range, later, counted⟩ := randomHeight_spec rnd
      obtain ⟨same, ranges, last, all⟩ := ih (randomHeight rnd).2
      simp only [drawHeights, List.map_cons, List.sum_cons, List.forall_mem_cons]
      refine ⟨congrArg (key :: ·) same, ⟨range, ranges⟩, ?_, ?_⟩
      · rw [last, later, ← iterate_add_apply, Nat.add_comm]
      · rw [hits_add, ← later, all, counted]

namespace Seeded

variable {Key : Type} {compare : Key → Key → Int}

theorem foldlM_insert (keys : List Key) (list : SkipList Key) (rnd : Random) :
    keys.foldlM (insert compare) ⟨list, rnd⟩ =
      ((drawHeights rnd keys).1.foldlM
        (fun list call => SkipList.insert compare list call.1 call.2) list).map
        fun list => ⟨list, (drawHeights rnd keys).2⟩ := by
  induction keys generalizing list rnd with
  | nil => rfl
  | cons key rest ih =>
      simp only [List.foldlM_cons, insert, drawHeights, Option.bind_eq_bind,
        Option.bind_assoc, Option.bind_some, Option.map_bind, ih]
      rfl

/-- A skip list with its own generator, whatever keys are inserted, as long as they differ:
every `Insert` succeeds, with a height from 1 to 12; and the levels that the nodes have above
the first are exactly the draws that have succeeded so far, a quarter of them when they come
to a period of the generator. -/
theorem insertAll_heights (order : ThreeWay compare) (keys : List Key)
    (distinct : keys.Pairwise fun left right => compare left right ≠ 0) :
    ∃ seeded rows, insertAll compare keys = some seeded ∧ Layered compare seeded.list rows ∧
      (rows.map Row.key).Perm keys ∧
      let drawn := (rows.map fun row => draws row.height).sum
      seeded.rnd = Random.advance^[drawn] (Random.new 0xdeadbeef) ∧
        (rows.map fun row => row.height - 1).sum = hits drawn (Random.new 0xdeadbeef) ∧
        (drawn = 2 ^ 31 - 2 → (rows.map fun row => row.height - 1).sum = (2 ^ 31 - 2) / 4) := by
  obtain ⟨same, tall, later, counted⟩ := drawHeights_spec (Random.new 0xdeadbeef) keys
  have apart : (drawHeights (Random.new 0xdeadbeef) keys).1.Pairwise fun left right =>
      compare left.1 right.1 ≠ 0 := by
    rw [← same, List.pairwise_map] at distinct
    exact distinct
  obtain ⟨list, rows, ran, layered, perm⟩ := insertAll_layered order _ tall apart
  have levels : ∀ measure : Nat → Nat, (rows.map fun row => measure row.height).sum =
      ((drawHeights (Random.new 0xdeadbeef) keys).1.map fun call => measure call.2).sum := by
    intro measure
    have permuted := (perm.map fun call => measure call.2).sum_eq
    rw [List.map_map] at permuted
    exact permuted
  refine ⟨⟨list, (drawHeights (Random.new 0xdeadbeef) keys).2⟩, rows, ?_, layered, ?_, ?_⟩
  · rw [SkipList.insertAll] at ran
    obtain ⟨made, new, rest⟩ := Option.bind_eq_some_iff.mp ran
    rw [insertAll, Seeded.new, new, Option.bind_eq_bind, Option.bind_eq_bind, Option.bind_some,
      Option.bind_some, foldlM_insert, rest, Option.map_some]
  · have keysPerm := perm.map Prod.fst
    rw [List.map_map, same] at keysPerm
    exact keysPerm
  · rw [levels draws, levels fun height => height - 1, ← counted]
    refine ⟨later, rfl, fun period => ?_⟩
    rw [period, hits_eq_card]
    exact Random.card_oneIn (Random.new_proper _) (by decide)

/-- Three keys, whose heights the generator decides. -/
theorem insertAll_heights_three :
    ∃ (seeded : Seeded Int) (rows : List (Row Int)),
      insertAll (fun left right : Int => left - right) [5, 3, 8] = some seeded ∧
      (rows.map Row.key).Perm [5, 3, 8] ∧
      seeded.rnd =
        Random.advance^[(rows.map fun row => draws row.height).sum] (Random.new 0xdeadbeef) := by
  have order : ThreeWay fun left right : Int => left - right :=
    ⟨fun left right => by omega, fun left middle right => by omega⟩
  obtain ⟨seeded, rows, ran, _, keys, later, _⟩ :=
    insertAll_heights order [5, 3, 8] (by decide)
  exact ⟨seeded, rows, ran, keys, later⟩

end Seeded

end SkipList

end MiniLevelDb
