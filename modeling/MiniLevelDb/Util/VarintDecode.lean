import MiniLevelDb.Util.CodingStream
import MiniLevelDb.Foundation.Leb128

/-!
# Decoding varints

The decoders accept a string exactly if one of its first five or ten bytes ends a number,
and then take the bytes up to that one. They do not look at the bits that the last of
these bytes has beyond the word, so a number that is too large by those bits is taken
for a smaller one.
-/

namespace MiniLevelDb

open Foundation Leb128

variable {width : Nat}

/-- The loop of both decoders, up to the shift `top`. -/
def getVarintLoop (top : Nat) : Nat → Nat → Slice → BitVec width → Option (BitVec width × Slice)
  | limit + 1, shift, next :: p, result =>
      if shift ≤ top then
        let byte := next.setWidth width
        if byte &&& 128 ≠ 0 then
          getVarintLoop top limit (shift + 7) p (result ||| ((byte &&& 127) <<< shift))
        else some (result ||| (byte <<< shift), p)
      else none
  | _, _, _, _ => none

theorem getVarint32Loop_eq (limit shift : Nat) (p : Slice) (result : BitVec 32) :
    getVarint32Loop limit shift p result = getVarintLoop 28 limit shift p result := by
  induction limit generalizing shift p result with
  | zero => cases p <;> rfl
  | succ limit ih =>
      cases p with
      | nil => rfl
      | cons next p => simp only [getVarint32Loop, getVarintLoop, ih]

theorem getVarint64Loop_eq (limit shift : Nat) (p : Slice) (result : BitVec 64) :
    getVarint64Loop limit shift p result = getVarintLoop 63 limit shift p result := by
  induction limit generalizing shift p result with
  | zero => cases p <;> rfl
  | succ limit ih =>
      cases p with
      | nil => rfl
      | cons next p => simp only [getVarint64Loop, getVarintLoop, ih]

/-- What decoding up to `most` bytes should answer, and the input after it. -/
def decoded (width most : Nat) (input : Slice) : Option (BitVec width) × Slice :=
  match terminator most input with
  | none => (none, input)
  | some index =>
      (some (BitVec.ofNat width (number (input.take (index + 1)))), input.drop (index + 1))

/-- The loop reads on from the bits it has, and takes `most` bytes in all at most. -/
theorem getVarintLoop_spec (wide : 8 ≤ width) {top most : Nat}
    (rounds_le : ∀ rounds, 7 * rounds ≤ top ↔ rounds < most) {limit rounds low : Nat} {p : Slice}
    (small : low < 2 ^ (7 * rounds)) :
    getVarintLoop top limit (7 * rounds) p (BitVec.ofNat width low) =
      (terminator (min limit (most - rounds)) p).map fun index =>
        (BitVec.ofNat width (low + 2 ^ (7 * rounds) * number (p.take (index + 1))),
          p.drop (index + 1)) := by
  induction limit generalizing rounds low p with
  | zero => cases p <;> simp [getVarintLoop, terminator]
  | succ limit ih =>
      cases p with
      | nil => simp [getVarintLoop, terminator]
      | cons next p =>
          rw [getVarintLoop]
          by_cases early : rounds < most
          · have left : min (limit + 1) (most - rounds) =
                min limit (most - (rounds + 1)) + 1 := by omega
            rw [if_pos ((rounds_le rounds).mpr early), left, terminator_cons]
            by_cases ends : next.toNat < 128
            · have unmarked := (widened_and_128 wide next).mpr ends
              rw [if_pos ends, Option.map_some]
              simp only [BitVec.ofNat_eq_ofNat, unmarked, ne_eq, not_true_eq_false, if_false,
                or_group small (toNat_widened wide next), Nat.zero_add, List.take_succ_cons,
                List.take_zero, List.drop_succ_cons, List.drop_zero, number_cons, number_nil,
                Nat.mul_zero, Nat.add_zero, Nat.mod_eq_of_lt ends]
            · have marked := mt (widened_and_128 wide next).mp ends
              have group : (next.setWidth width &&& BitVec.ofNat width 127).toNat =
                  next.toNat % 128 := widened_and_127 wide next
              have power : 2 ^ (7 * (rounds + 1)) = 2 ^ (7 * rounds) * 128 := by
                rw [Nat.mul_succ, Nat.pow_add]
              have grown : low + 2 ^ (7 * rounds) * (next.toNat % 128) <
                  2 ^ (7 * (rounds + 1)) := by
                have digit : next.toNat % 128 + 1 ≤ 128 := Nat.mod_lt _ (by decide)
                have := Nat.mul_le_mul_left (2 ^ (7 * rounds)) digit
                rw [Nat.mul_succ] at this
                omega
              rw [if_neg ends, Option.map_map]
              refine (if_pos marked).trans ?_
              rw [← Nat.mul_succ]
              refine (congrArg _ (or_group small group)).trans ((ih grown).trans ?_)
              congr 1
              funext index
              simp only [Function.comp_apply, List.take_succ_cons, List.drop_succ_cons,
                number_cons, power]
              rw [Nat.mul_add, Nat.mul_assoc, Nat.add_assoc]
          · have none_left : most - rounds = 0 := by omega
            rw [if_neg (mt (rounds_le rounds).mp early), none_left, Nat.min_zero]
            rfl

/-- A string that is read to its end. -/
theorem getVarintLoop_input (wide : 8 ≤ width) {top most : Nat}
    (rounds_le : ∀ rounds, 7 * rounds ≤ top ↔ rounds < most) (input : Slice) :
    getVarintLoop top input.length 0 input (0 : BitVec width) =
      (terminator most input).map fun index =>
        (BitVec.ofNat width (number (input.take (index + 1))), input.drop (index + 1)) := by
  have looped := @getVarintLoop_spec width wide top most rounds_le input.length 0 0 input
    (by decide)
  have whole : terminator (min input.length most) input = terminator most input := by
    rw [terminator, terminator, Nat.min_comm, ← List.take_take, List.take_length]
  rw [Nat.sub_zero, whole] at looped
  simp only [Nat.mul_zero, Nat.pow_zero, Nat.one_mul, Nat.zero_add] at looped
  exact looped

/-- The fast path for a number of one byte answers like the loop. -/
theorem getVarint32Ptr_eq_fallback (p : Slice) (limit : Nat) :
    getVarint32Ptr p limit = getVarint32PtrFallback p limit := by
  unfold getVarint32Ptr
  split
  · rename_i limit next rest
    dsimp only
    split
    · rename_i unmarked
      have stops : ¬ next.setWidth 32 &&& 128 ≠ 0 := not_not.mpr unmarked
      rw [getVarint32PtrFallback, getVarint32Loop, if_pos (Nat.zero_le 28)]
      dsimp only
      rw [if_neg stops]
      simp
    · rfl
  · rfl

theorem getVarint32_eq (input : Slice) : getVarint32 input = decoded 32 5 input := by
  rw [getVarint32, getVarint32Ptr_eq_fallback, getVarint32PtrFallback, getVarint32Loop_eq,
    @getVarintLoop_input 32 (by decide) 28 5 (fun rounds => by omega), decoded]
  cases terminator 5 input <;> rfl

theorem getVarint64_eq (input : Slice) : getVarint64 input = decoded 64 10 input := by
  rw [getVarint64, getVarint64Ptr, getVarint64Loop_eq,
    @getVarintLoop_input 64 (by decide) 63 10 (fun rounds => by omega), decoded]
  cases terminator 10 input <;> rfl

theorem decoded_isSome (width most : Nat) (input : Slice) :
    (decoded width most input).1.isSome = true ↔ ∃ byte ∈ input.take most, byte.toNat < 128 := by
  rw [← terminator_isSome, decoded]
  cases terminator most input <;> rfl

/-- A string that stops before the byte that ends its number is refused, and left alone. -/
theorem decoded_take {most index count : Nat} {input : Slice}
    (found : terminator most input = some index) (early : count ≤ index) :
    decoded width most (input.take count) = (none, input.take count) := by
  rw [decoded, terminator_take found early]

theorem getLengthPrefixedSlice_iff (input result rest : Slice) :
    getLengthPrefixedSlice input = (some result, rest) ↔
      ∃ length behind, getVarint32 input = (some length, behind) ∧
        length.toNat ≤ behind.length ∧ result = behind.take length.toNat ∧
        rest = behind.drop length.toNat := by
  unfold getLengthPrefixedSlice
  cases read : getVarint32 input with
  | mk found behind =>
      cases found with
      | none => simp
      | some length =>
          simp only [Prod.mk.injEq, Option.some.injEq]
          constructor
          · intro taken
            split at taken
            · rename_i enough
              simp only [Prod.mk.injEq, Option.some.injEq] at taken
              exact ⟨length, behind, ⟨rfl, rfl⟩, enough, taken.1.symm, taken.2.symm⟩
            · simp at taken
          · rintro ⟨_, _, ⟨rfl, rfl⟩, enough, rfl, rfl⟩
            rw [if_pos enough]

/-- The decoders accept a string exactly if one of its first five or ten bytes ends a number,
and answer with the number of the bytes up to it, cut to the word; nothing shorter is
accepted, and a refused string is left alone. The fast path makes no difference. A slice is
read exactly if a length is and that many bytes follow. -/
theorem varint_decodes :
    (∀ input, getVarint32 input = decoded 32 5 input ∧ getVarint64 input = decoded 64 10 input) ∧
    (∀ input, ((getVarint32 input).1.isSome = true ↔ ∃ byte ∈ input.take 5, byte.toNat < 128) ∧
      ((getVarint64 input).1.isSome = true ↔ ∃ byte ∈ input.take 10, byte.toNat < 128)) ∧
    (∀ input index count, count ≤ index →
      (terminator 5 input = some index →
        getVarint32 (input.take count) = (none, input.take count)) ∧
      (terminator 10 input = some index →
        getVarint64 (input.take count) = (none, input.take count))) ∧
    (∀ p limit, getVarint32Ptr p limit = getVarint32PtrFallback p limit) ∧
    ∀ input result rest, getLengthPrefixedSlice input = (some result, rest) ↔
      ∃ length behind, getVarint32 input = (some length, behind) ∧
        length.toNat ≤ behind.length ∧ result = behind.take length.toNat ∧
        rest = behind.drop length.toNat := by
  refine ⟨fun input => ⟨getVarint32_eq input, getVarint64_eq input⟩, fun input => ?_,
    fun input index count early => ⟨fun found => ?_, fun found => ?_⟩,
    getVarint32Ptr_eq_fallback, getLengthPrefixedSlice_iff⟩
  · rw [getVarint32_eq, getVarint64_eq]
    exact ⟨decoded_isSome 32 5 input, decoded_isSome 64 10 input⟩
  · rw [getVarint32_eq]
    exact decoded_take found early
  · rw [getVarint64_eq]
    exact decoded_take found early

/-- A number in more bytes than it needs. -/
theorem varint_decodes_overlong :
    getVarint32 [0x80, 0x80, 0x01, 0x07] = (some 0x4000, [0x07]) ∧
      getVarint32 [0x80, 0x80] = (none, [0x80, 0x80]) := by
  obtain ⟨decodes, -, refused, -⟩ := varint_decodes
  exact ⟨(decodes [0x80, 0x80, 0x01, 0x07]).1,
    (refused [0x80, 0x80, 0x01, 0x07] 2 2 (by decide)).1 (by decide)⟩

/-- If there is an answer, it is the number that the bytes taken stand for. -/
def Exact (input : Slice) (answer : Option (BitVec width) × Slice) : Prop :=
  ∀ value, answer.1 = some value →
    number (input.take (input.length - answer.2.length)) < 2 ^ width ∧
      number (input.take (input.length - answer.2.length)) = value.toNat

theorem decoded_exact_iff {most extra : Nat} (size : width = 7 * most + extra) (input : Slice) :
    Exact input (decoded width (most + 1) input) ↔
      ¬ (terminator (most + 1) input = some most ∧ 2 ^ extra ≤ (input.getD most 0).toNat) := by
  rw [decoded]
  cases found : terminator (most + 1) input with
  | none => exact iff_of_true nofun nofun
  | some index =>
      have fits := @number_lt_iff input most index extra found
      rw [← size] at fits
      have inside := (terminator_spec found).2.1
      have taken : input.length - (input.drop (index + 1)).length = index + 1 := by
        rw [List.length_drop]
        omega
      rw [Option.some.injEq]
      constructor
      · rintro exact_ ⟨rfl, big⟩
        have small := (exact_ _ rfl).1
        dsimp only at small
        rw [taken] at small
        exact fits.mp small ⟨rfl, big⟩
      · rintro room _ ⟨⟩
        have small : number (input.take (index + 1)) < 2 ^ width :=
          fits.mpr fun ⟨last, big⟩ => room ⟨last, last ▸ big⟩
        dsimp only
        rw [taken]
        exact ⟨small, by rw [BitVec.toNat_ofNat, Nat.mod_eq_of_lt small]⟩

/-- The answer is the number that was encoded, unless the last byte allowed ends it and has
bits that the word has no room for. -/
theorem varint_exact_iff (input : Slice) :
    (Exact input (getVarint32 input) ↔
      ¬ (terminator 5 input = some 4 ∧ 16 ≤ (input.getD 4 0).toNat)) ∧
    (Exact input (getVarint64 input) ↔
      ¬ (terminator 10 input = some 9 ∧ 2 ≤ (input.getD 9 0).toNat)) := by
  constructor
  · rw [getVarint32_eq]
    exact @decoded_exact_iff 32 4 4 rfl input
  · rw [getVarint64_eq]
    exact @decoded_exact_iff 64 9 1 rfl input

/-- The encoding of `2 ^ 32` in five bytes is taken for zero. -/
theorem varint32_overflow : ¬ ∀ input, Exact input (getVarint32 input) := by
  intro exact_
  have small := (exact_ [0x80, 0x80, 0x80, 0x80, 0x10] 0 (by decide)).1
  revert small
  decide

end MiniLevelDb
