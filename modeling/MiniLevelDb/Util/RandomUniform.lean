import MiniLevelDb.Util.Random
import Mathlib.Data.Int.CardIntervalMod

/-!
# Numbers from a range

`Uniform`, `OneIn` and `Skewed` reduce what `Next` returns modulo their argument. As the
seed passes each number from 1 to `M - 1` once in a period, the remainders come as often as
in these numbers.
-/

namespace MiniLevelDb

open Foundation Function

namespace Random

/-- `Uniform`; for the remainder the `int` is taken for an unsigned number. -/
def uniform (random : Random) (n : BitVec 32) : BitVec 32 × Random :=
  (random.next.1 % n, random.next.2)

/-- `OneIn`. -/
def oneIn (random : Random) (n : BitVec 32) : Bool × Random :=
  (random.next.1 % n == 0, random.next.2)

/-- `Skewed`. -/
def skewed (random : Random) (maxLog : BitVec 32) : BitVec 32 × Random :=
  let (base, random) := random.uniform (maxLog + 1)
  random.uniform (1#32 <<< base.toNat)

section Period

variable {random : Random}

/-- What the calls of `Next` return in a period are the numbers from 1 to `M - 1`. -/
theorem card_filter_next (proper : random.Proper) (among : Nat → Prop) [DecidablePred among] :
    ((Finset.range (2 ^ 31 - 2)).filter fun count =>
      among (advance^[count] random).next.1.toNat).card =
      ((Finset.Ico 1 (2 ^ 31 - 1)).filter among).card := by
  have stored := next_proper proper
  have member := proper_iff.mp stored
  obtain ⟨period, -⟩ := lehmer_full_period orderOf_A (by decide) member
  have prime := prime_of_orderOf (by decide) orderOf_A
  have closed : ∀ seed ∈ Finset.Ico 1 2147483647,
      lehmer 2147483647 16807 seed ∈ Finset.Ico 1 2147483647 := fun seed inside =>
    lehmer_mem prime (by decide) inside
  have size : (Finset.Ico 1 2147483647).card = 2 ^ 31 - 2 := Nat.card_Ico 1 2147483647
  have counted := card_filter_iterate closed member (period.trans size.symm) among
  rw [size] at counted
  refine Eq.trans (congrArg Finset.card (Finset.filter_congr fun count _ => ?_)) counted
  have shifted : (advance^[count] random).next.2 = advance^[count] random.next.2 :=
    (iterate_succ_apply' advance count random).symm.trans (iterate_succ_apply advance count random)
  rw [← advance_iterate stored, ← next_stored, shifted]

/-- How many of the numbers below a bound, zero apart, leave a remainder. -/
theorem card_filter_mod {bound n r : Nat} (positive : 0 < bound) (small : r < n) :
    ((Finset.Ico 1 bound).filter fun number => number % n = r).card + (if r = 0 then 1 else 0) =
      bound / n + if r < bound % n then 1 else 0 := by
  have counted := Nat.count_modEq_card bound (Nat.zero_lt_of_lt small) r
  have same : ∀ number, number ≡ r [MOD n] ↔ number % n = r := by
    intro number
    rw [Nat.ModEq, Nat.mod_eq_of_lt small]
  simp only [same] at counted
  rw [Nat.count_eq_card_filter_range, Nat.mod_eq_of_lt small] at counted
  rw [← counted, Finset.range_eq_Ico, ← Finset.insert_Ico_add_one_left_eq_Ico positive,
    Finset.filter_insert, Nat.zero_mod, Nat.zero_add]
  have apart : 0 ∉ (Finset.Ico 1 bound).filter fun number => number % n = r := by
    intro member
    have inside := (Finset.mem_filter.mp member).1
    exact absurd (Finset.mem_Ico.mp inside).1 (by decide)
  by_cases zero : r = 0
  · rw [if_pos zero, if_pos zero.symm, Finset.card_insert_of_notMem apart]
  · rw [if_neg zero, if_neg (Ne.symm zero), Nat.add_zero]

section Remainders

variable {n : BitVec 32}

/-- How often the calls of `Next` in a period leave a remainder. -/
theorem card_next_mod (proper : random.Proper) {r : Nat} (small : r < n.toNat) :
    ((Finset.range (2 ^ 31 - 2)).filter fun count =>
      (advance^[count] random).next.1.toNat % n.toNat = r).card + (if r = 0 then 1 else 0) =
      (2 ^ 31 - 1) / n.toNat + if r < (2 ^ 31 - 1) % n.toNat then 1 else 0 := by
  rw [card_filter_next proper fun number => number % n.toNat = r]
  exact card_filter_mod (by decide) small

theorem toNat_pos (nonzero : n ≠ 0) : 0 < n.toNat := by
  apply Nat.pos_of_ne_zero
  intro zero
  exact nonzero (BitVec.eq_of_toNat_eq zero)

theorem oneIn_iff : (random.oneIn n).1 = true ↔ random.next.1.toNat % n.toNat = 0 := by
  rw [oneIn, beq_iff_eq, ← BitVec.toNat_inj, BitVec.toNat_umod]
  rfl

theorem card_oneIn (proper : random.Proper) (nonzero : n ≠ 0) :
    ((Finset.range (2 ^ 31 - 2)).filter fun count =>
      ((advance^[count] random).oneIn n).1 = true).card = (2 ^ 31 - 2) / n.toNat := by
  have often := card_next_mod proper (toNat_pos nonzero)
  simp only [oneIn_iff]
  rw [if_pos rfl, show 2 ^ 31 - 1 = 2 ^ 31 - 2 + 1 from rfl, Nat.succ_div] at often
  by_cases divides : n.toNat ∣ 2 ^ 31 - 2 + 1
  · rw [if_pos divides, Nat.mod_eq_zero_of_dvd divides, if_neg (Nat.lt_irrefl 0)] at often
    exact Nat.succ.inj often
  · rw [if_neg divides, if_pos (Nat.pos_of_ne_zero (mt Nat.dvd_of_mod_eq_zero divides))] at often
    exact Nat.succ.inj often

/-- In a period `Uniform` returns each number of its range as often as the numbers below `M`
have it as a remainder, only that zero is not among these; and `OneIn` is true once in `n`
calls, up to the last ones. -/
theorem uniform_counts (proper : random.Proper) (nonzero : n ≠ 0) :
    (∀ r < n.toNat, ((Finset.range (2 ^ 31 - 2)).filter fun count =>
        ((advance^[count] random).uniform n).1.toNat = r).card + (if r = 0 then 1 else 0) =
      (2 ^ 31 - 1) / n.toNat + if r < (2 ^ 31 - 1) % n.toNat then 1 else 0) ∧
    ((Finset.range (2 ^ 31 - 2)).filter fun count =>
      ((advance^[count] random).oneIn n).1 = true).card = (2 ^ 31 - 2) / n.toNat := by
  refine ⟨fun r small => ?_, card_oneIn proper nonzero⟩
  simp only [uniform, BitVec.toNat_umod]
  exact card_next_mod proper small

end Remainders

end Period

/-- The generator of the skip list, which asks it for one in four. -/
theorem uniform_counts_skipList :
    ((Finset.range (2 ^ 31 - 2)).filter fun count =>
      ((advance^[count] (new 0xdeadbeef)).oneIn 4).1 = true).card = 536870911 :=
  (uniform_counts (new_proper 0xdeadbeef) (by decide : (4 : BitVec 32) ≠ 0)).2

/-- `Skewed` keeps below two to the power of its argument. -/
theorem skewed_lt {random : Random} {maxLog : BitVec 32} (small : maxLog.toNat < 31) :
    (random.skewed maxLog).1.toNat < 2 ^ maxLog.toNat := by
  have next : (maxLog + 1).toNat = maxLog.toNat + 1 := by
    rw [BitVec.toNat_add]
    exact Nat.mod_eq_of_lt (Nat.lt_trans (Nat.succ_lt_succ small) (by decide))
  have base : (random.next.1 % (maxLog + 1)).toNat ≤ maxLog.toNat := by
    rw [BitVec.toNat_umod, next]
    exact Nat.le_of_lt_succ (Nat.mod_lt _ (Nat.succ_pos _))
  have power : (1#32 <<< (random.next.1 % (maxLog + 1)).toNat).toNat =
      2 ^ (random.next.1 % (maxLog + 1)).toNat := by
    rw [BitVec.toNat_shiftLeft, Nat.shiftLeft_eq, BitVec.toNat_ofNat, Nat.one_mod, Nat.one_mul]
    exact Nat.mod_eq_of_lt (Nat.pow_lt_pow_right (by decide) (Nat.lt_trans
      (Nat.lt_of_le_of_lt base small) (by decide)))
  refine Nat.lt_of_lt_of_le ?_ (Nat.pow_le_pow_right (by decide) base)
  rw [← power, skewed, uniform]
  dsimp only
  rw [uniform]
  dsimp only
  rw [BitVec.toNat_umod]
  apply Nat.mod_lt
  rw [power]
  exact Nat.two_pow_pos _

end Random

end MiniLevelDb
