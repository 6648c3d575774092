import MiniLevelDb.Foundation.Lehmer
import Mathlib.Data.Nat.Prime.Factorial
import Mathlib.Tactic.NormNum.Prime
import Mathlib.Tactic.ReduceModChar

/-!
# Random numbers

The seed is multiplied by `A` modulo the prime `M`, which is `2 ^ 31 - 1`. As `2 ^ 31` is
one modulo `M`, the product is reduced by adding what is above its lower 31 bits to them
and subtracting `M` at most once.
-/

namespace MiniLevelDb

open Foundation Function

@[ext] structure Random where
  seed : BitVec 32
deriving DecidableEq, Repr

namespace Random

/-- The constructor. -/
def new (s : BitVec 32) : Random :=
  let seed := s &&& 0x7fffffff
  ⟨if seed = 0 ∨ seed = 2147483647 then 1 else seed⟩

def M : BitVec 32 := 2147483647

def A : BitVec 64 := 16807

def product (random : Random) : BitVec 64 := random.seed.setWidth 64 * A

/-- The sum that `Next` assigns to `seed_` first, before it is cut to 32 bits. -/
def folded (random : Random) : BitVec 64 :=
  (random.product >>> 31) + (random.product &&& M.setWidth 64)

/-- `Next`: the number it returns, which is the new seed. -/
def next (random : Random) : BitVec 32 × Random :=
  let seed := random.folded.setWidth 32
  let seed := if seed > M then seed - M else seed
  (seed, ⟨seed⟩)

/-- The generator after a call of `Next`. -/
def advance (random : Random) : Random := random.next.2

/-- The seed is neither zero nor `M`, which would come back forever. -/
def Proper (random : Random) : Prop := 1 ≤ random.seed.toNat ∧ random.seed.toNat ≤ 2 ^ 31 - 2

/-- A call of `Next` computes with numbers, and no word of it is too short for them. -/
structure Exact (random : Random) : Prop where
  product : random.product.toNat = random.seed.toNat * 16807
  folded : random.folded.toNat =
    random.seed.toNat * 16807 / 2 ^ 31 + random.seed.toNat * 16807 % 2 ^ 31
  fits : random.folded.toNat < 2 ^ 32
  apart : random.folded.toNat ≠ 0 ∧ random.folded.toNat ≠ 2 ^ 31 - 1
  returned : random.next.1.toNat = random.seed.toNat * 16807 % (2 ^ 31 - 1)
  stored : random.next.2.seed = random.next.1
  proper : random.next.2.Proper

variable {random : Random}

theorem new_proper (s : BitVec 32) : (new s).Proper := by
  have masked : (s &&& 0x7fffffff).toNat = s.toNat % 2 ^ 31 := by
    rw [BitVec.toNat_and]
    exact Nat.and_two_pow_sub_one_eq_mod s.toNat 31
  rw [Proper, new]
  dsimp only
  split
  · decide
  · rename_i usable
    rw [not_or, ← BitVec.toNat_inj, ← BitVec.toNat_inj, masked] at usable
    obtain ⟨nonzero, notM⟩ := usable
    rw [masked]
    change s.toNat % 2 ^ 31 ≠ 0 at nonzero
    change s.toNat % 2 ^ 31 ≠ 2147483647 at notM
    omega

/-- The multiplier is a primitive root of the modulus. -/
theorem orderOf_A : orderOf ((16807 : Nat) : ZMod 2147483647) = 2147483647 - 1 := by
  have order : orderOf (16807 : ZMod 2147483647) = [2, 3, 3, 7, 11, 31, 151, 331].prod := by
    apply orderOf_eq_prod
    · intro factor member
      fin_cases member <;> norm_num
    · show (16807 : ZMod 2147483647) ^ 2147483646 = 1
      reduce_mod_char
    · intro factor member
      have exponent : [2, 3, 3, 7, 11, 31, 151, 331].prod = 2147483646 := by norm_num
      rw [exponent]
      fin_cases member
      all_goals
        norm_num
        reduce_mod_char
        decide
  exact order

theorem product_toNat (random : Random) :
    random.product.toNat = random.seed.toNat * 16807 := by
  have bound := random.seed.isLt
  rw [product, BitVec.toNat_mul, BitVec.toNat_setWidth]
  show random.seed.toNat % 2 ^ 64 * 16807 % 2 ^ 64 = _
  omega

theorem folded_toNat (random : Random) :
    random.folded.toNat =
      random.seed.toNat * 16807 / 2 ^ 31 + random.seed.toNat * 16807 % 2 ^ 31 := by
  have low : (random.product &&& M.setWidth 64).toNat = random.product.toNat % 2 ^ 31 := by
    rw [BitVec.toNat_and]
    exact Nat.and_two_pow_sub_one_eq_mod _ 31
  have bound := random.seed.isLt
  rw [folded, BitVec.toNat_add, BitVec.toNat_ushiftRight, low, product_toNat,
    Nat.shiftRight_eq_div_pow]
  omega

/-- The sum has 32 bits, and it is not yet reduced by `M` at most once. -/
theorem folded_lt (proper : random.Proper) : random.folded.toNat < 2 * (2 ^ 31 - 1) := by
  have small := proper.2
  rw [folded_toNat]
  omega

/-- Adding the upper bits to the lower 31 leaves the residue as it is. -/
theorem folded_mod (random : Random) :
    random.folded.toNat % (2 ^ 31 - 1) = random.seed.toNat * 16807 % (2 ^ 31 - 1) := by
  rw [folded_toNat]
  generalize random.seed.toNat * 16807 = product
  have parts : product / 2 ^ 31 + product % 2 ^ 31 + product / 2 ^ 31 * (2 ^ 31 - 1) = product := by
    omega
  conv_rhs => rw [← parts, Nat.add_mul_mod_self_right]

/-- `M` is prime to the factor, and too large to divide a seed. -/
theorem residue_ne_zero (proper : random.Proper) :
    random.seed.toNat * 16807 % (2 ^ 31 - 1) ≠ 0 := by
  obtain ⟨positive, small⟩ := proper
  have coprime : Nat.Coprime (2 ^ 31 - 1) 16807 := by decide
  have below : random.seed.toNat < 2 ^ 31 - 1 := Nat.lt_succ_of_le small
  intro zero
  have divides := coprime.dvd_of_dvd_mul_right (Nat.dvd_of_mod_eq_zero zero)
  exact Nat.not_le_of_lt below (Nat.le_of_dvd positive divides)

/-- A sum that the next seed is made of is neither zero nor `M`. -/
theorem folded_apart (proper : random.Proper) :
    random.folded.toNat ≠ 0 ∧ random.folded.toNat ≠ 2 ^ 31 - 1 := by
  have residue := residue_ne_zero proper
  rw [← folded_mod] at residue
  constructor
  · intro zero
    rw [zero] at residue
    exact residue rfl
  · intro same
    rw [same] at residue
    exact residue (Nat.mod_self _)

theorem next_toNat (proper : random.Proper) :
    random.next.1.toNat = random.seed.toNat * 16807 % (2 ^ 31 - 1) := by
  have below := folded_lt proper
  have apart := folded_apart proper
  have cut : (random.folded.setWidth 32).toNat = random.folded.toNat := by
    rw [BitVec.toNat_setWidth, Nat.mod_eq_of_lt (by omega)]
  have bound : M.toNat = 2 ^ 31 - 1 := rfl
  rw [← folded_mod, next]
  generalize random.folded.toNat = sum at *
  generalize random.folded.setWidth 32 = seed at *
  dsimp only
  split
  · rename_i above
    have less := BitVec.lt_def.mp above
    rw [BitVec.toNat_sub_of_le (BitVec.le_of_lt above), cut, bound]
    rw [cut, bound] at less
    rw [Nat.mod_eq_sub_mod (Nat.le_of_lt less), Nat.mod_eq_of_lt (by omega)]
  · rename_i within
    rw [gt_iff_lt, BitVec.lt_def, cut, bound] at within
    rw [cut, Nat.mod_eq_of_lt (Nat.lt_of_le_of_ne (Nat.le_of_not_lt within) apart.2)]

theorem next_stored (random : Random) : random.next.2.seed = random.next.1 := by
  simp only [next]

/-- A residue that is not zero is a seed again. -/
theorem next_proper (proper : random.Proper) : random.next.2.Proper := by
  rw [Proper, next_stored, next_toNat proper]
  exact ⟨Nat.pos_of_ne_zero (residue_ne_zero proper),
    Nat.le_of_lt_succ (Nat.mod_lt _ (by decide))⟩

theorem next_exact (proper : random.Proper) : random.Exact where
  product := product_toNat random
  folded := folded_toNat random
  fits := Nat.lt_trans (folded_lt proper) (by decide)
  apart := folded_apart proper
  returned := next_toNat proper
  stored := next_stored random
  proper := next_proper proper

/-- The numbers a seed can be. -/
theorem proper_iff : random.Proper ↔ random.seed.toNat ∈ Finset.Ico 1 2147483647 := by
  rw [Proper, Finset.mem_Ico]
  omega

theorem advance_proper (proper : random.Proper) (count : Nat) :
    (advance^[count] random).Proper := by
  induction count with
  | zero => exact proper
  | succ count ih =>
      rw [iterate_succ_apply']
      exact (next_exact ih).proper

/-- The seeds are those of a Lehmer generator. -/
theorem advance_iterate (proper : random.Proper) (count : Nat) :
    (advance^[count] random).seed.toNat = (lehmer 2147483647 16807)^[count] random.seed.toNat := by
  induction count with
  | zero => rfl
  | succ count ih =>
      have exact_ := next_exact (advance_proper proper count)
      rw [iterate_succ_apply', iterate_succ_apply', ← ih, lehmer]
      exact exact_.returned

theorem minimalPeriod_advance (proper : random.Proper) :
    minimalPeriod advance random = minimalPeriod (lehmer 2147483647 16807) random.seed.toNat := by
  have same : ∀ count, IsPeriodicPt advance count random ↔
      IsPeriodicPt (lehmer 2147483647 16807) count random.seed.toNat := by
    intro count
    rw [IsPeriodicPt, IsFixedPt, IsPeriodicPt, IsFixedPt, ← advance_iterate proper,
      BitVec.toNat_inj]
    exact ⟨congrArg Random.seed, Random.ext⟩
  apply Nat.dvd_antisymm
  · rw [← isPeriodicPt_iff_minimalPeriod_dvd, same]
    exact isPeriodicPt_minimalPeriod _ _
  · rw [← isPeriodicPt_iff_minimalPeriod_dvd, ← same]
    exact isPeriodicPt_minimalPeriod _ _

/-- Whatever it was made from, the generator only has seeds from 1 to `M - 1`, and every call
of `Next` returns the seed times `A` modulo `M`, without an overflow on the way. From each of
these seeds it passes all of them before it repeats one. -/
theorem next_full_period :
    (∀ (s : BitVec 32) (count : Nat), (advance^[count] (new s)).Proper ∧
      (advance^[count] (new s)).Exact) ∧
    ∀ random : Random, random.Proper → minimalPeriod advance random = 2 ^ 31 - 2 ∧
      ∀ target, 1 ≤ target → target ≤ 2 ^ 31 - 2 →
        ∃! count, count < 2 ^ 31 - 2 ∧ (advance^[count] random).seed.toNat = target := by
  constructor
  · intro s count
    have proper := advance_proper (new_proper s) count
    exact ⟨proper, next_exact proper⟩
  · intro random proper
    obtain ⟨period, passes⟩ :=
      lehmer_full_period orderOf_A (by decide) (proper_iff.mp proper)
    refine ⟨(minimalPeriod_advance proper).trans period, fun target positive small => ?_⟩
    obtain ⟨count, reached, only⟩ :=
      passes target (Finset.mem_Ico.mpr ⟨positive, Nat.lt_succ_of_le small⟩)
    simp only [← advance_iterate proper] at reached only
    exact ⟨count, reached, only⟩

/-- The generator that the skip list makes comes back to its seed after all others. -/
theorem next_full_period_skipList :
    minimalPeriod advance (new 0xdeadbeef) = 2 ^ 31 - 2 ∧
      ∃! count, count < 2 ^ 31 - 2 ∧ (advance^[count] (new 0xdeadbeef)).seed.toNat = 1 := by
  obtain ⟨proper, -⟩ := next_full_period.1 0xdeadbeef 0
  obtain ⟨period, passes⟩ := next_full_period.2 (new 0xdeadbeef) proper
  exact ⟨period, passes 1 (Nat.le_refl 1) (by decide)⟩

end Random

end MiniLevelDb
