import Mathlib.Data.List.Prime
import Mathlib.Data.Nat.Prime.Basic
import Mathlib.Dynamics.PeriodicPts.Defs
import Mathlib.NumberTheory.LucasPrimality

/-!
# Lehmer generators

A Lehmer generator multiplies its seed by a constant modulo a prime. If the constant is
a primitive root, every seed but zero comes back only after all the others, and the
powers that show this show that the modulus is prime as well.
-/

namespace Foundation

open Function

section Cycle

variable {State : Type} {step : State → State} {states : Finset State} {start : State}

theorem iterate_mem (closed : ∀ state ∈ states, step state ∈ states) (member : start ∈ states)
    (count : Nat) : step^[count] start ∈ states := by
  induction count with
  | zero => exact member
  | succ count ih =>
      rw [iterate_succ_apply']
      exact closed _ ih

/-- A cycle as long as there are states passes each of them once. -/
theorem existsUnique_iterate (closed : ∀ state ∈ states, step state ∈ states)
    (member : start ∈ states) (full : minimalPeriod step start = states.card) {target : State}
    (wanted : target ∈ states) : ∃! count, count < states.card ∧ step^[count] start = target := by
  classical
  have injective : Set.InjOn (fun count => step^[count] start) (Finset.range states.card) := by
    have := @iterate_injOn_Iio_minimalPeriod _ step start
    rwa [full, ← Finset.coe_range] at this
  have all : (Finset.range states.card).image (fun count => step^[count] start) = states := by
    apply Finset.eq_of_subset_of_card_le
    · intro state passed
      obtain ⟨count, -, rfl⟩ := Finset.mem_image.mp passed
      exact iterate_mem closed member count
    · rw [Finset.card_image_of_injOn injective, Finset.card_range]
  rw [← all] at wanted
  obtain ⟨count, early, reached⟩ := Finset.mem_image.mp wanted
  refine ⟨count, ⟨Finset.mem_range.mp early, reached⟩, fun other passes => ?_⟩
  exact injective (Finset.mem_coe.mpr (Finset.mem_range.mpr passes.1)) (Finset.mem_coe.mpr early)
    (passes.2.trans reached.symm)

/-- What holds of so many states of the cycle holds so often while it is passed once. -/
theorem card_filter_iterate (closed : ∀ state ∈ states, step state ∈ states)
    (member : start ∈ states) (full : minimalPeriod step start = states.card)
    (among : State → Prop) [DecidablePred among] :
    ((Finset.range states.card).filter fun count => among (step^[count] start)).card =
      (states.filter among).card := by
  apply Finset.card_bij fun count _ => step^[count] start
  · intro count passed
    refine Finset.mem_filter.mpr ⟨iterate_mem closed member count, ?_⟩
    exact (Finset.mem_filter.mp passed).2
  · intro count passed other alsoPassed same
    have early := Finset.mem_range.mp (Finset.mem_filter.mp passed).1
    have alsoEarly := Finset.mem_range.mp (Finset.mem_filter.mp alsoPassed).1
    exact (existsUnique_iterate closed member full (iterate_mem closed member other)).unique
      ⟨early, same⟩ ⟨alsoEarly, rfl⟩
  · intro state wanted
    obtain ⟨inside, holds⟩ := Finset.mem_filter.mp wanted
    obtain ⟨count, ⟨early, rfl⟩, _⟩ := existsUnique_iterate closed member full inside
    exact ⟨count, Finset.mem_filter.mpr ⟨Finset.mem_range.mpr early, holds⟩, rfl⟩

end Cycle

/-- The order of an element, from the prime factors of an exponent that makes it one. -/
theorem orderOf_eq_prod {Element : Type} [Monoid Element] {element : Element}
    {factors : List Nat} (primes : ∀ factor ∈ factors, factor.Prime)
    (full : element ^ factors.prod = 1)
    (part : ∀ factor ∈ factors, element ^ (factors.prod / factor) ≠ 1) :
    orderOf element = factors.prod := by
  have positive : 0 < factors.prod :=
    List.prod_pos fun factor member => (primes factor member).pos
  apply orderOf_eq_of_pow_and_pow_div_prime positive full
  intro prime isPrime divides
  obtain ⟨factor, member, within⟩ := isPrime.prime.dvd_prod_iff.mp divides
  obtain rfl := (Nat.prime_dvd_prime_iff_eq isPrime (primes factor member)).mp within
  exact part prime member

/-- A residue of that order shows that the modulus is prime. -/
theorem prime_of_orderOf {modulus : Nat} {element : ZMod modulus} (large : 1 < modulus)
    (order : orderOf element = modulus - 1) : modulus.Prime := by
  apply lucas_primality modulus element
  · rw [← order]
    exact pow_orderOf_eq_one element
  · intro prime isPrime divides
    have shorter : (modulus - 1) / prime < orderOf element := by
      rw [order]
      exact Nat.div_lt_self (Nat.sub_pos_of_lt large) isPrime.one_lt
    have positive : 0 < (modulus - 1) / prime :=
      Nat.div_pos (Nat.le_of_dvd (Nat.sub_pos_of_lt large) divides) isPrime.pos
    exact pow_ne_one_of_lt_orderOf positive.ne' shorter

/-- The next seed. -/
def lehmer (modulus multiplier seed : Nat) : Nat := seed * multiplier % modulus

section Lehmer

variable {modulus multiplier seed : Nat}

theorem lehmer_iterate (small : seed < modulus) (count : Nat) :
    (lehmer modulus multiplier)^[count] seed = seed * multiplier ^ count % modulus := by
  induction count with
  | zero => exact (Nat.mod_eq_of_lt (by simpa using small)).symm.trans (by simp)
  | succ count ih =>
      rw [iterate_succ_apply', ih, lehmer, Nat.mod_mul_mod, pow_succ, Nat.mul_assoc]

/-- With a prime modulus a seed does not become zero. -/
theorem lehmer_mem (prime : modulus.Prime) (coprime : ¬ modulus ∣ multiplier)
    (member : seed ∈ Finset.Ico 1 modulus) :
    lehmer modulus multiplier seed ∈ Finset.Ico 1 modulus := by
  obtain ⟨positive, small⟩ := Finset.mem_Ico.mp member
  refine Finset.mem_Ico.mpr ⟨Nat.pos_of_ne_zero fun zero => ?_, Nat.mod_lt _ prime.pos⟩
  rcases prime.dvd_mul.mp (Nat.dvd_of_mod_eq_zero zero) with divides | divides
  · exact Nat.not_le.mpr small (Nat.le_of_dvd positive divides)
  · exact coprime divides

/-- The period of every seed is the order of the multiplier. -/
theorem minimalPeriod_lehmer (prime : modulus.Prime) (member : seed ∈ Finset.Ico 1 modulus) :
    minimalPeriod (lehmer modulus multiplier) seed = orderOf (multiplier : ZMod modulus) := by
  obtain ⟨positive, small⟩ := Finset.mem_Ico.mp member
  have field : Fact modulus.Prime := ⟨prime⟩
  have nonzero : (seed : ZMod modulus) ≠ 0 := by
    rw [ne_eq, ZMod.natCast_eq_zero_iff]
    exact fun divides => Nat.not_le.mpr small (Nat.le_of_dvd positive divides)
  have periodic : ∀ count, IsPeriodicPt (lehmer modulus multiplier) count seed ↔
      (multiplier : ZMod modulus) ^ count = 1 := by
    intro count
    have same := ZMod.natCast_eq_natCast_iff' (seed * multiplier ^ count) seed modulus
    rw [Nat.mod_eq_of_lt small, Nat.cast_mul, Nat.cast_pow] at same
    rw [IsPeriodicPt, IsFixedPt, lehmer_iterate small, ← same]
    exact mul_eq_left₀ nonzero
  apply Nat.dvd_antisymm
  · rw [← isPeriodicPt_iff_minimalPeriod_dvd, periodic]
    exact pow_orderOf_eq_one _
  · rw [orderOf_dvd_iff_pow_eq_one, ← periodic]
    exact isPeriodicPt_minimalPeriod _ _

/-- With a primitive root the generator passes every seed but zero before it repeats one. -/
theorem lehmer_full_period (order : orderOf (multiplier : ZMod modulus) = modulus - 1)
    (large : 1 < modulus) (member : seed ∈ Finset.Ico 1 modulus) :
    minimalPeriod (lehmer modulus multiplier) seed = modulus - 1 ∧
      ∀ target ∈ Finset.Ico 1 modulus, ∃! count, count < modulus - 1 ∧
        (lehmer modulus multiplier)^[count] seed = target := by
  have prime := prime_of_orderOf large order
  have field : Fact modulus.Prime := ⟨prime⟩
  have coprime : ¬ modulus ∣ multiplier := by
    intro divides
    have power := pow_orderOf_eq_one (multiplier : ZMod modulus)
    rw [order, (ZMod.natCast_eq_zero_iff _ _).mpr divides, zero_pow (by omega)] at power
    exact zero_ne_one power
  have period := (minimalPeriod_lehmer prime member).trans order
  have count := Nat.card_Ico 1 modulus
  refine ⟨period, fun target wanted => ?_⟩
  rw [← count] at period ⊢
  exact existsUnique_iterate (fun state => lehmer_mem prime coprime) member period wanted

end Lehmer

end Foundation
