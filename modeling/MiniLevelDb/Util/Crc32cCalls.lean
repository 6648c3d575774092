import MiniLevelDb.Util.Crc32c
import Mathlib.Order.WellFounded

/-!
# The calls behind a checksum

`crc32c::Extend` asks once whether the checksum can be accelerated, in the initialiser
of a static variable of its own. Here a call runs with some fuel and with the state of
that variable; a call that completes does so for some fuel. When control comes back to
the declaration while the initialiser runs, the language leaves open what happens: the
program stops there, or the initialiser is run again.
-/

namespace MiniLevelDb.Crc32c

/-- The static variable `accelerate`. -/
inductive Accelerate where
  | unset
  | initialising
  | set (value : Bool)
deriving DecidableEq, Repr

/-- What happens when the declaration is entered during its own initialisation. -/
inductive Reentry where
  | stops
  | restarts
deriving DecidableEq, Repr

/-- The bytes of `kTestCRCBuffer`. -/
def kTestCRCBuffer : Slice := [84, 101, 115, 116, 67, 82, 67, 66, 117, 102, 102, 101, 114]

def kTestCRCValue : BitVec 32 := 0xdcbc59fa#32

mutual

/-- `Extend`, past the declaration of `accelerate`. -/
def extendWith (reentry : Reentry) (value : Bool) (address : Nat) (crc : BitVec 32)
    (data : Slice) : Nat → Option (BitVec 32 × Accelerate)
  | 0 => none
  | fuel + 1 =>
      if value then acceleratedCRC32C reentry (.set value) address crc data fuel
      else some (extendAt address crc data, .set value)

/-- `Extend`. -/
def extendCall (reentry : Reentry) (accelerate : Accelerate) (address : Nat) (crc : BitVec 32)
    (data : Slice) : Nat → Option (BitVec 32 × Accelerate)
  | 0 => none
  | fuel + 1 =>
      match accelerate, reentry with
      | .set value, _ => extendWith reentry value address crc data fuel
      | .initialising, .stops => none
      | .initialising, .restarts =>
          (canAccelerateCRC32C reentry .initialising fuel).bind fun value =>
            extendWith reentry value address crc data fuel
      | .unset, _ =>
          (canAccelerateCRC32C reentry .initialising fuel).bind fun value =>
            extendWith reentry value address crc data fuel

/-- `CanAccelerateCRC32C`. -/
def canAccelerateCRC32C (reentry : Reentry) (accelerate : Accelerate) : Nat → Option Bool
  | 0 => none
  | fuel + 1 =>
      (acceleratedCRC32C reentry accelerate 0 0 kTestCRCBuffer fuel).map fun result =>
        result.1 == kTestCRCValue

/-- `AcceleratedCRC32C`. -/
def acceleratedCRC32C (reentry : Reentry) (accelerate : Accelerate) (address : Nat)
    (crc : BitVec 32) (data : Slice) : Nat → Option (BitVec 32 × Accelerate)
  | 0 => none
  | fuel + 1 => extendCall reentry accelerate address crc data fuel

end

/-- `Value`. -/
def valueCall (reentry : Reentry) (accelerate : Accelerate) (address : Nat) (data : Slice)
    (fuel : Nat) : Option (BitVec 32 × Accelerate) :=
  extendCall reentry accelerate address 0 data fuel

/-- A sequence of calls of `Extend`, each at its address. -/
def extendCalls (reentry : Reentry) (fuel : Nat) :
    List (Nat × BitVec 32 × Slice) → Accelerate → Option (List (BitVec 32) × Accelerate)
  | [], accelerate => some ([], accelerate)
  | (address, crc, data) :: rest, accelerate => do
      let (result, accelerate) ← extendCall reentry accelerate address crc data fuel
      let (results, accelerate) ← extendCalls reentry fuel rest accelerate
      some (result :: results, accelerate)

/-- The calls that `InitTypeCrc` makes in the constructor of a log writer. -/
def typeCrcCalls : List (Nat × BitVec 32 × Slice) :=
  (List.range 5).map fun type => (0, 0, [BitVec.ofNat 8 type])

/-- The functions of the initialisation. -/
inductive CrcFunction where
  | extend
  | canAccelerateCRC32C
  | acceleratedCRC32C
deriving DecidableEq, Repr

/-- The first function is called by the second before `accelerate` has a value. -/
inductive CalledBy : CrcFunction → CrcFunction → Prop where
  | initialiser : CalledBy .canAccelerateCRC32C .extend
  | test : CalledBy .acceleratedCRC32C .canAccelerateCRC32C
  | software : CalledBy .extend .acceleratedCRC32C

/-- While the initialiser runs, none of the three functions completes. -/
theorem initialising_never (reentry : Reentry) (fuel : Nat) :
    (∀ address crc data, extendCall reentry .initialising address crc data fuel = none) ∧
    canAccelerateCRC32C reentry .initialising fuel = none ∧
    ∀ address crc data, acceleratedCRC32C reentry .initialising address crc data fuel = none := by
  induction fuel with
  | zero =>
      refine ⟨fun address crc data => ?_, ?_, fun address crc data => ?_⟩
      · rw [extendCall]
      · rw [canAccelerateCRC32C]
      · rw [acceleratedCRC32C]
  | succ fuel ih =>
      obtain ⟨extends_, can, accelerated⟩ := ih
      refine ⟨fun address crc data => ?_, ?_, fun address crc data => ?_⟩
      · cases reentry with
        | stops => rw [extendCall]
        | restarts => rw [extendCall, can, Option.bind_none]
      · rw [canAccelerateCRC32C, accelerated, Option.map_none]
      · rw [acceleratedCRC32C, extends_]

/-- The first call of `Extend` does not complete. -/
theorem extendCall_never (reentry : Reentry) (address : Nat) (crc : BitVec 32) (data : Slice)
    (fuel : Nat) : extendCall reentry .unset address crc data fuel = none := by
  cases fuel with
  | zero => rw [extendCall]
  | succ fuel => rw [extendCall, (initialising_never reentry fuel).2.1, Option.bind_none]

/-- The three functions call each other in a circle. -/
theorem calledBy_not_wellFounded : ¬ WellFounded CalledBy := by
  intro wellFounded
  have circle : ∀ function, CalledBy .extend function ∨ CalledBy .acceleratedCRC32C function ∨
      CalledBy .canAccelerateCRC32C function → False := by
    intro function
    induction function using wellFounded.induction with
    | h function ih =>
        rintro (call | call | call)
        · exact ih .extend call (.inr (.inr .initialiser))
        · exact ih .acceleratedCRC32C call (.inl .software)
        · exact ih .canAccelerateCRC32C call (.inr (.inl .test))
  exact circle .acceleratedCRC32C (.inl .software)

/-- A sequence of calls gets past its end only if it is empty. -/
theorem extendCalls_iff (reentry : Reentry) (calls : List (Nat × BitVec 32 × Slice)) :
    (∃ fuel result, extendCalls reentry fuel calls .unset = some result) ↔ calls = [] := by
  cases calls with
  | nil => exact ⟨fun _ => rfl, fun _ => ⟨0, _, rfl⟩⟩
  | cons first rest =>
      obtain ⟨address, crc, data⟩ := first
      constructor
      · rintro ⟨fuel, result, ran⟩
        rw [extendCalls, extendCall_never] at ran
        cases ran
      · intro impossible
        cases impossible

/-- No checksum is ever computed: from the start of the program, no call of `Extend` or
`Value` completes, no sequence of calls gets past its first, and the constructor of
a log writer does not return. -/
theorem checksum_never_completes (reentry : Reentry) (address : Nat) (crc : BitVec 32)
    (data : Slice) (calls : List (Nat × BitVec 32 × Slice)) :
    (¬ ∃ fuel result, extendCall reentry .unset address crc data fuel = some result) ∧
    (¬ ∃ fuel result, valueCall reentry .unset address data fuel = some result) ∧
    ((∃ fuel result, extendCalls reentry fuel calls .unset = some result) ↔ calls = []) ∧
    (¬ ∃ fuel result, extendCalls reentry fuel typeCrcCalls .unset = some result) ∧
    ¬ WellFounded CalledBy := by
  refine ⟨?_, ?_, extendCalls_iff reentry calls, ?_, calledBy_not_wellFounded⟩
  · rintro ⟨fuel, result, ran⟩
    rw [extendCall_never] at ran
    cases ran
  · rintro ⟨fuel, result, ran⟩
    rw [valueCall, extendCall_never] at ran
    cases ran
  · intro ran
    have none_made := (extendCalls_iff reentry typeCrcCalls).mp ran
    cases none_made

theorem empty_checksum_never_completes :
    ¬ ∃ fuel result, valueCall .stops .unset 0 [] fuel = some result := by
  rintro ⟨fuel, result, ran⟩
  rw [valueCall, extendCall_never] at ran
  cases ran

end MiniLevelDb.Crc32c
