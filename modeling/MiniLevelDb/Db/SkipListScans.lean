import MiniLevelDb.Db.SkipListIterator
import MiniLevelDb.Db.SkipListReaders

/-!
# Scans beside a writer

A thread goes through the list with an iterator while another inserts. Each of `key`,
`SeekToFirst` and `Next` loads one pointer at most; in between the writer goes on. Since the
node that the iterator is at stays where it is among the others, whatever was behind it still
is when `Next` is called.
-/

namespace MiniLevelDb

open Foundation

namespace SkipList

variable {Key : Type} {compare : Key → Key → Int} {list after : SkipList Key}

/-! ## Keys stay -/

theorem key_of_setNext {level : Nat} {node : NodePtr} {target : Option NodePtr}
    (written : list.setNext level node target = some after) : after.key = list.key := by
  by_cases within : level < list.height node
  · obtain ⟨other, same, shape, -⟩ := setNext_spec within target
    obtain rfl := Option.some.inj (written.symm.trans same)
    exact shape.key
  · unfold setNext at written
    cases found : list.nodes[node]? with
    | none =>
        rw [found] at written
        cases written
    | some cell =>
        rw [found] at written
        dsimp only at written
        rw [if_neg] at written
        · cases written
        · intro inside
          apply within
          rw [height, found]
          exact inside

theorem key_of_allocate {call : Call Key} {prev : Prev} {node : NodePtr} {key : Key}
    (stored : list.key node = some key) :
    (Writer.allocate list call prev).1.key node = some key := by
  have inside : node < list.nodes.length := by
    by_contra outside
    rw [SkipList.key, List.getElem?_eq_none (Nat.le_of_not_lt outside)] at stored
    cases stored
  obtain ⟨-, -, -, -, old⟩ := newNode_spec list call.key call.height
  exact (old node inside).1.trans stored

theorem Writer.key_of_step {writer later : Writer Key} {node : NodePtr} {key : Key}
    (stepped : writer.step compare list = some (after, later))
    (stored : list.key node = some key) : after.key node = some key := by
  cases writer with
  | idle => cases stepped
  | entering call =>
      cases stepped
      exact stored
  | searching call search =>
      obtain ⟨outcome, -, rest⟩ := Option.bind_eq_some_iff.mp stepped
      cases outcome with
      | inl search =>
          cases rest
          exact stored
      | inr found =>
          obtain ⟨prev, -, rest⟩ := Option.bind_eq_some_iff.mp rest
          obtain ⟨equal, -, rest⟩ := Option.bind_eq_some_iff.mp rest
          split at rest
          · cases rest
          · split at rest
            · cases rest
            · cases rest
              exact stored
  | measuring call prev =>
      by_cases taller : call.height > list.maxHeight
      · have same : step compare list (.measuring call prev) = some (list, .raising call prev) :=
          if_pos taller
        cases same.symm.trans stepped
        exact stored
      · have same : step compare list (.measuring call prev) =
            some (allocate list call prev) := if_neg taller
        have made : (allocate list call prev).1 = after :=
          congrArg Prod.fst (Option.some.inj (same.symm.trans stepped))
        rw [← made]
        exact key_of_allocate stored
  | raising call prev =>
      obtain ⟨raised, -, rest⟩ := Option.bind_eq_some_iff.mp stepped
      cases rest
      exact stored
  | storing call prev =>
      have made : (allocate { list with maxHeight := call.height } call prev).1 = after :=
        congrArg Prod.fst (Option.some.inj stepped)
      rw [← made]
      exact @key_of_allocate _ { list with maxHeight := call.height } _ _ _ _ stored
  | loading call x prev level =>
      obtain ⟨before, -, rest⟩ := Option.bind_eq_some_iff.mp stepped
      obtain ⟨successor, -, rest⟩ := Option.bind_eq_some_iff.mp rest
      cases rest
      exact stored
  | filling call x prev level successor =>
      obtain ⟨middle, written, rest⟩ := Option.bind_eq_some_iff.mp stepped
      cases rest
      rw [key_of_setNext written]
      exact stored
  | joining call x prev level =>
      obtain ⟨before, -, rest⟩ := Option.bind_eq_some_iff.mp stepped
      obtain ⟨middle, written, rest⟩ := Option.bind_eq_some_iff.mp rest
      have kept : middle.key node = some key := by
        rw [key_of_setNext written]
        exact stored
      split at rest
      · cases rest
        exact kept
      · cases rest
        exact kept

/-- The key of a node is never written again. -/
theorem System.key_of_moves {system later : System Key} {node : NodePtr} {key : Key}
    (runs : Relation.ReflTransGen (System.Moves compare) system later)
    (stored : system.list.key node = some key) : later.list.key node = some key := by
  induction runs with
  | refl => exact stored
  | tail _ moved ih =>
      obtain ⟨event, -, stepped⟩ := moved
      cases event with
      | insert call =>
          cases stepped
          exact ih
      | write =>
          obtain ⟨⟨list, writer⟩, wrote, rfl⟩ := Option.map_eq_some_iff.mp stepped
          exact Writer.key_of_step wrote ih
      | search thread target =>
          cases stepped
          exact ih
      | read thread =>
          obtain ⟨reader, -, rfl⟩ := Option.map_eq_some_iff.mp stepped
          exact ih

/-- A search of one thread, from the state in which it is asked for to the one in which it
has returned; the other threads go on in between. -/
def System.Searches (compare : Key → Key → Int) (thread : Nat) (target : Key)
    (asked answered : System Key) (result : Option NodePtr) : Prop :=
  ∃ began before, asked.Enabled compare (.search thread target) ∧
    asked.step compare (.search thread target) = some began ∧
    Relation.ReflTransGen (System.Moves compare) began before ∧
    before.Enabled compare (.read thread) ∧ before.step compare (.read thread) = some answered ∧
    answered.readers thread = .returned target result

/-- A search returns the first of the rows that are linked when it has returned and are not
before its target. -/
theorem System.Searches.inv {thread : Nat} {target : Key} {asked answered : System Key}
    {result : Option NodePtr} (order : ThreeWay compare) (reached : Reached compare asked)
    (searches : Searches compare thread target asked answered result) :
    Relation.ReflTransGen (Moves compare) asked answered ∧
      ∃ front back, Inv compare answered (front ++ back) ∧
        Splits compare target (front ++ back) front back ∧ result = back.head?.map Row.node := by
  obtain ⟨began, before, enabled, asked_, runs, busy, stepped, returned⟩ := searches
  obtain ⟨rows, inv⟩ := reached_inv order reached
  have called : Moves compare asked began := ⟨_, enabled, asked_⟩
  have last : Moves compare before answered := ⟨_, busy, stepped⟩
  obtain ⟨rows, inv⟩ := inv.moves order (.head called runs)
  obtain ⟨reader, moved, placed, found⟩ := inv.linked.reader_step order (inv.readers thread) busy
  simp only [System.step, moved, Option.map_some, Option.some.injEq] at stepped
  subst stepped
  obtain rfl : reader = .returned target result := by
    rw [← returned]
    exact (Function.update_self thread reader before.readers).symm
  obtain ⟨front, back, splits, head⟩ := found target result rfl
  obtain rfl := splits.whole
  exact ⟨.head called (runs.tail last), front, back, inv.setReader thread placed, splits, head⟩

/-- All that was finished when a search was asked for is among the rows it looks at. -/
theorem System.Searches.rows {thread : Nat} {target : Key} {asked answered : System Key}
    {result : Option NodePtr} (order : ThreeWay compare) (reached : Reached compare asked)
    (searches : Searches compare thread target asked answered result) :
    ∃ front back, Linked compare answered.list (front ++ back) ∧
      Splits compare target (front ++ back) front back ∧
      result = back.head?.map Row.node ∧
      (∀ row ∈ front ++ back, row.key ∈ answered.begun) ∧
      ∀ key ∈ asked.finished, key ∈ (front ++ back).map Row.key := by
  obtain ⟨runs, front, back, inv, splits, head⟩ := searches.inv order reached
  refine ⟨front, back, inv.linked, splits, head, inv.known, ?_⟩
  intro key done
  exact inv.finished key (finished_mono runs done)

/-! ## Scans -/

namespace System

variable {asked system later : System Key} {iterator last : Iterator} {keys : List Key}
  {front back : List (Row Key)}

/-- Where a scan that is asked for begins: at the first node, or at the one that a search
returns; and which keys it is for. -/
inductive Starts (compare : Key → Key → Int) (asked : System Key) :
    (Key → Prop) → System Key → Iterator → Prop where
  | first {iterator : Iterator} (begins : Iterator.seekToFirst asked.list = some iterator) :
      Starts compare asked (fun _ => True) asked iterator
  | seek {thread : Nat} {target : Key} {answered : System Key} {result : Option NodePtr}
      (searches : Searches compare thread target asked answered result) :
      Starts compare asked (fun key => compare key target ≥ 0) answered ⟨result⟩

/-- A number of rounds of `key` and `Next`, and the keys they read; the other threads move
before each call. -/
inductive Scans (compare : Key → Key → Int) :
    System Key → Iterator → List Key → System Key → Iterator → Prop where
  | stop {system : System Key} {iterator : Iterator} :
      Scans compare system iterator [] system iterator
  | look {system looked moving later : System Key} {iterator following last : Iterator}
      {key : Key} {keys : List Key}
      (waits : Relation.ReflTransGen (Moves compare) system looked)
      (read : iterator.key looked.list = some key)
      (goes : Relation.ReflTransGen (Moves compare) looked moving)
      (moved : iterator.next moving.list = some following)
      (rest : Scans compare moving following keys later last) :
      Scans compare system iterator (key :: keys) later last

theorem begun_mono (runs : Relation.ReflTransGen (Moves compare) system later) {key : Key}
    (member : key ∈ system.begun) : key ∈ later.begun := by
  induction runs with
  | refl => exact member
  | tail _ moved ih =>
      obtain ⟨event, -, stepped⟩ := moved
      cases event with
      | insert call =>
          obtain rfl := Option.some.inj stepped
          exact List.mem_cons_of_mem _ ih
      | write =>
          obtain ⟨_, -, rfl⟩ := Option.map_eq_some_iff.mp stepped
          exact ih
      | search thread target =>
          obtain rfl := Option.some.inj stepped
          exact ih
      | read thread =>
          obtain ⟨_, -, rfl⟩ := Option.map_eq_some_iff.mp stepped
          exact ih

/-- Where a scan begins, with the rows it is for behind it. -/
theorem Starts.inv {concerns : Key → Prop} (order : ThreeWay compare)
    (reached : Reached compare asked) (starts : Starts compare asked concerns system iterator) :
    Relation.ReflTransGen (Moves compare) asked system ∧
      ∃ front back, Inv compare system (front ++ back) ∧
        iterator.node = back.head?.map Row.node ∧ (∀ row ∈ front, ¬ concerns row.key) ∧
        ∀ row ∈ back, ∀ key, compare row.key key ≤ 0 → concerns key := by
  cases starts with
  | first begins =>
      obtain ⟨rows, inv⟩ := reached_inv order reached
      refine ⟨.refl, [], rows, inv, ?_, by simp, fun _ _ _ _ => trivial⟩
      rw [Iterator.seekToFirst, inv.linked.bottom.1.read_head, List.head?_map, Option.map_some,
        Option.some.injEq] at begins
      rw [← begins]
  | seek searches =>
      obtain ⟨runs, front, back, inv, splits, head⟩ := searches.inv order reached
      refine ⟨runs, front, back, inv, head, ?_, ?_⟩
      · intro row member above
        exact Int.not_lt.mpr above (splits.below row member)
      · intro row member key behind
        apply Int.not_lt.mp
        apply order.le_iff_not_lt.mp
        exact order.trans _ _ _ (order.le_iff_not_lt.mpr (splits.beyond row member)) behind

/-- `Next` goes to the row behind, whichever there is by then. -/
theorem Inv.next_row (inv : Inv compare system (front ++ row :: back)) :
    Iterator.next system.list ⟨some row.node⟩ = some ⟨back.head?.map Row.node⟩ := by
  have chain := inv.linked.bottom.1
  have split : (front ++ row :: back).map Row.node =
      (front.map Row.node ++ [row.node]) ++ back.map Row.node := by simp
  rw [split] at chain
  have slot : endSlot id headPtr (front.map Row.node ++ [row.node]) = row.node := by
    rw [endSlot_append]
    rfl
  have read := chain.drop.read_head
  rw [slot, Option.or_none, List.head?_map] at read
  rw [Iterator.next, Option.bind_eq_bind, Option.bind_some, read, Option.map_some]

/-- An iterator at a row can be read and moved, now and later. -/
theorem Inv.goes_on (order : ThreeWay compare) (inv : Inv compare system (front ++ row :: back))
    (runs : Relation.ReflTransGen (Moves compare) system later) :
    later.list.key row.node = some row.key ∧
      ∃ before behind, Inv compare later (before ++ behind) ∧
        (∀ key ∈ before.map Row.key, compare key row.key ≤ 0) ∧
        Iterator.next later.list ⟨some row.node⟩ = some ⟨behind.head?.map Row.node⟩ ∧
        ∀ other ∈ behind, compare row.key other.key < 0 := by
  obtain ⟨rows, kept, grows⟩ := inv.moves_grows order runs
  obtain ⟨grown, listed, node, key, -⟩ := grows row (by simp)
  obtain ⟨before, behind, rfl⟩ := List.append_of_mem listed
  obtain ⟨-, ⟨above, -⟩, apart⟩ : _ ∧ (_ ∧ _) ∧ _ := by
    have increasing := kept.linked.increasing
    rw [List.pairwise_append, List.pairwise_cons] at increasing
    exact increasing
  refine ⟨?_, before ++ [grown], behind, ?_, ?_, ?_, ?_⟩
  · rw [← node, ← key]
    exact kept.linked.stored grown (by simp)
  · rw [List.append_assoc]
    exact kept
  · intro other member
    rw [List.map_append, List.mem_append] at member
    rcases member with earlier | last
    · obtain ⟨front, inFront, rfl⟩ := List.mem_map.mp earlier
      rw [← key]
      exact Int.le_of_lt (apart front inFront grown List.mem_cons_self)
    · obtain rfl := List.mem_singleton.mp last
      exact Int.le_of_eq (key ▸ order.refl grown.key)
  · rw [← node]
    exact kept.next_row
  · intro other member
    rw [← key]
    exact above other member

/-- What a scan passes: keys that are there, upwards from the row that the iterator is at,
and all of those that were finished from there on to where the iterator ends up. -/
theorem Scans.passes (order : ThreeWay compare) (inv : Inv compare system (front ++ back))
    (stands : iterator.node = back.head?.map Row.node)
    (scans : Scans compare system iterator keys later last) :
    Relation.ReflTransGen (Moves compare) system later ∧
      ∃ passed rest, Inv compare later (passed ++ rest) ∧
        last.node = rest.head?.map Row.node ∧
        keys.Pairwise (fun left right => compare left right < 0) ∧
        (∀ key ∈ keys, (∃ row, back.head? = some row ∧ compare row.key key ≤ 0) ∧
          key ∈ later.begun) ∧
        ∀ key ∈ system.finished,
          key ∈ front.map Row.key ∨ key ∈ keys ∨ key ∈ rest.map Row.key := by
  induction scans generalizing front back with
  | stop =>
      refine ⟨.refl, front, back, inv, stands, List.Pairwise.nil, by simp, fun key done => ?_⟩
      have listed := inv.finished key done
      rw [List.map_append, List.mem_append] at listed
      exact listed.imp_right .inr
  | @look system looked moving later iterator following last key keys waits read goes moved
      scans ih =>
      obtain ⟨node⟩ := iterator
      dsimp only at stands
      subst stands
      cases back with
      | nil => cases read
      | cons row back =>
          have runs := waits.trans goes
          obtain rfl : row.key = key :=
            Option.some.inj ((inv.goes_on order waits).1.symm.trans read)
          obtain ⟨-, before, behind, kept, least, next, above⟩ := inv.goes_on order runs
          obtain rfl := Option.some.inj (next.symm.trans moved)
          obtain ⟨further, passed, rest, ended, stops, increasing, read, complete⟩ := ih kept rfl
          have after : ∀ key ∈ keys, compare row.key key < 0 := by
            intro key member
            obtain ⟨⟨first, head, le⟩, -⟩ := read key member
            exact order.lt_of_lt_of_le (above first (List.mem_of_head? head)) le
          refine ⟨runs.trans further, passed, rest, ended, stops, ?_, ?_, ?_⟩
          · exact List.pairwise_cons.mpr ⟨after, increasing⟩
          · intro key member
            rcases List.mem_cons.mp member with rfl | member
            · refine ⟨⟨row, rfl, Int.le_of_eq (order.refl row.key)⟩, ?_⟩
              exact begun_mono (runs.trans further) (inv.known row (by simp))
            · exact ⟨⟨row, rfl, Int.le_of_lt (after key member)⟩, (read key member).2⟩
          · intro key done
            have listed := inv.finished key done
            rw [List.map_append, List.mem_append, List.map_cons, List.mem_cons] at listed
            rcases listed with earlier | rfl | later
            · exact .inl earlier
            · exact .inr (.inl List.mem_cons_self)
            · refine .inr ?_
              rcases complete key (finished_mono runs done) with low | seen | left
              · obtain ⟨other, member, rfl⟩ := List.mem_map.mp later
                have increasing := inv.linked.increasing
                rw [List.pairwise_append, List.pairwise_cons] at increasing
                have behind := increasing.2.1.1 other member
                exact absurd behind (order.le_iff_not_lt.mp (least _ low))
              · exact .inl (List.mem_cons_of_mem _ seen)
              · exact .inr left

end System

end SkipList

end MiniLevelDb
