import Mathlib.Algebra.BigOperators.Group.Multiset.Basic
import Mathlib.Data.Multiset.Count

/-!
# Permits that are counted down first

A counter of free permits. Who wants one counts down and only then looks at what was
there; without a permit, the attempt is taken back later. Between the two the counter is
too low, and may be negative. What each of many has is counted in the sum of it all.
-/

namespace Foundation

/-- Of so many permits some are held, and some attempts that failed are yet to be taken back. -/
structure Permits (limit : Nat) (counter : Int) (held attempts : Nat) : Prop where
  balance : counter = limit - held - attempts
  bounded : held ≤ limit

namespace Permits

variable {limit held attempts : Nat} {counter : Int}

theorem unused (limit : Nat) : Permits limit limit 0 0 :=
  ⟨by omega, Nat.zero_le limit⟩

/-- There was a free permit. -/
theorem take (permits : Permits limit counter held attempts) (free : 0 < counter) :
    Permits limit (counter - 1) (held + 1) attempts := by
  have balance := permits.balance
  exact ⟨by omega, by omega⟩

/-- There was none, perhaps only because of the attempts of others. -/
theorem attempt (permits : Permits limit counter held attempts) :
    Permits limit (counter - 1) held (attempts + 1) := by
  have balance := permits.balance
  exact ⟨by omega, permits.bounded⟩

theorem takeBack (permits : Permits limit counter held (attempts + 1)) :
    Permits limit (counter + 1) held attempts := by
  have balance := permits.balance
  exact ⟨by omega, permits.bounded⟩

theorem release (permits : Permits limit counter (held + 1) attempts) :
    Permits limit (counter + 1) held attempts := by
  have balance := permits.balance
  have bounded := permits.bounded
  exact ⟨by omega, by omega⟩

/-- Whoever holds a permit or has to take an attempt back sees that not all permits are free. -/
theorem below (permits : Permits limit counter held attempts) (some_ : 0 < held + attempts) :
    counter < limit := by
  have balance := permits.balance
  omega

/-- The counter is too low by no more than the attempts. -/
theorem neg_attempts_le (permits : Permits limit counter held attempts) :
    -(attempts : Int) ≤ counter := by
  have balance := permits.balance
  have bounded := permits.bounded
  omega

end Permits

section Shares

variable {Holder Share : Type} [DecidableEq Share] {shares : Holder → Multiset Share}
  {share : Share} {has : Holder → Prop} [DecidablePred has]

/-- A share is there as often as holders have it. -/
theorem count_sum_eq_countP
    (each : ∀ holder, (shares holder).count share = if has holder then 1 else 0)
    (holders : Multiset Holder) :
    (holders.map shares).sum.count share = holders.countP has := by
  induction holders using Multiset.induction_on with
  | empty => rfl
  | cons holder holders ih =>
      rw [Multiset.map_cons, Multiset.sum_cons, Multiset.count_add, ih, each,
        Multiset.countP_cons, Nat.add_comm]

theorem countP_le_count_sum (each : ∀ holder, has holder → share ∈ shares holder)
    (holders : Multiset Holder) :
    holders.countP has ≤ (holders.map shares).sum.count share := by
  induction holders using Multiset.induction_on with
  | empty => exact Nat.le_refl 0
  | cons holder holders ih =>
      rw [Multiset.map_cons, Multiset.sum_cons, Multiset.count_add, Multiset.countP_cons]
      split
      · rename_i holds
        have := Multiset.one_le_count_iff_mem.mpr (each holder holds)
        omega
      · omega

end Shares

end Foundation
