import MiniLevelDb.Util.ShardedCache
import Mathlib.Data.Finset.Card
import Mathlib.Order.Interval.Finset.Nat

/-!
# Which keys collide

`Hash` takes four bytes at a time, and each time what it has so far is permuted. So keys
that differ in one group of four bytes alone do not collide, and of all keys that do so
each shard of the cache gets the same number.
-/

namespace MiniLevelDb

/-! ## The mixing -/

/-- A shift by half of the width or more is undone by doing it again. -/
theorem xor_ushiftRight_ushiftRight {width : Nat} {shift : Nat} (half : width ≤ shift + shift)
    (value : BitVec width) :
    (value ^^^ value >>> shift) ^^^ (value ^^^ value >>> shift) >>> shift = value := by
  have gone : value >>> shift >>> shift = BitVec.ofNat width 0 := by
    rw [← BitVec.shiftRight_add]
    exact BitVec.ushiftRight_eq_zero half
  rw [BitVec.ushiftRight_xor_distrib, gone, BitVec.xor_zero, BitVec.xor_assoc, BitVec.xor_self,
    BitVec.xor_zero]

theorem xor_ushiftRight_inj {width : Nat} {shift : Nat} (half : width ≤ shift + shift)
    {left right : BitVec width} (same : left ^^^ left >>> shift = right ^^^ right >>> shift) :
    left = right := by
  rw [← xor_ushiftRight_ushiftRight half left, same, xor_ushiftRight_ushiftRight half]

/-- The multiplier of `Hash` is odd. -/
theorem multiplier_inverse : (0xc6a4a793 : BitVec 32) * 0xd8198e9b = 1#32 := by
  decide

theorem mul_multiplier_inj {left right : BitVec 32}
    (same : left * 0xc6a4a793 = right * 0xc6a4a793) : left = right := by
  calc left = left * (0xc6a4a793 * 0xd8198e9b) := by rw [multiplier_inverse, BitVec.mul_one]
    _ = right * (0xc6a4a793 * 0xd8198e9b) := by rw [← BitVec.mul_assoc, same, BitVec.mul_assoc]
    _ = right := by rw [multiplier_inverse, BitVec.mul_one]

/-- One round of the loop of `Hash`. -/
def hashWord (h w : BitVec 32) : BitVec 32 :=
  (h + w) * 0xc6a4a793 ^^^ ((h + w) * 0xc6a4a793) >>> 16

theorem hashWord_inj {left right first second : BitVec 32}
    (same : hashWord left first = hashWord right second) : left + first = right + second :=
  mul_multiplier_inj (xor_ushiftRight_inj (by decide) same)

theorem hashByte_inj {left right : BitVec 32} {first second : Byte}
    (same : hashByte left first = hashByte right second) :
    left + first.setWidth 32 = right + second.setWidth 32 :=
  mul_multiplier_inj (xor_ushiftRight_inj (by decide) same)

theorem hashLoop_word (h : BitVec 32) (first second third fourth : Byte) (rest : Slice) :
    hashLoop h (first :: second :: third :: fourth :: rest) =
      hashLoop (hashWord h (decodeFixed32 [first, second, third, fourth])) rest :=
  rfl

/-! ## What is left over -/

/-- The number that the switch of `Hash` adds. -/
def leftOver : Slice → BitVec 32
  | [first] => first.setWidth 32
  | [first, second] => (second.setWidth 32 <<< 8) + first.setWidth 32
  | [first, second, third] =>
      (third.setWidth 32 <<< 16) + (second.setWidth 32 <<< 8) + first.setWidth 32
  | _ => 0

theorem hashRest_inj {left right : BitVec 32} {first second : Slice}
    (lengths : first.length = second.length) (short : first.length < 4)
    (same : hashRest left first = hashRest right second) :
    left + leftOver first = right + leftOver second := by
  match first, second, lengths, short with
  | [], [], _, _ => exact congrArg (· + 0) same
  | [_], [_], _, _ => exact hashByte_inj same
  | [_, _], [_, _], _, _ =>
      have sums := hashByte_inj same
      rw [BitVec.add_assoc, BitVec.add_assoc] at sums
      exact sums
  | [_, _, _], [_, _, _], _, _ =>
      have sums := hashByte_inj same
      rw [BitVec.add_assoc, BitVec.add_assoc, BitVec.add_assoc, BitVec.add_assoc] at sums
      rw [leftOver, leftOver, BitVec.add_assoc, BitVec.add_assoc]
      exact sums

theorem toNat_leftOver (first second third : Byte) :
    (leftOver [first]).toNat = first.toNat ∧
      (leftOver [first, second]).toNat = second.toNat * 2 ^ 8 + first.toNat ∧
      (leftOver [first, second, third]).toNat =
        third.toNat * 2 ^ 16 + second.toNat * 2 ^ 8 + first.toNat := by
  have := first.isLt
  have := second.isLt
  have := third.isLt
  simp only [leftOver, BitVec.toNat_add, BitVec.toNat_shiftLeft, BitVec.toNat_setWidth,
    Nat.shiftLeft_eq]
  omega

theorem leftOver_inj {first second : Slice} (lengths : first.length = second.length)
    (short : first.length < 4) (same : leftOver first = leftOver second) : first = second := by
  have numbers := congrArg BitVec.toNat same
  match first, second, lengths, short with
  | [], [], _, _ => rfl
  | [a], [d], _, _ =>
      rw [(toNat_leftOver a 0 0).1, (toNat_leftOver d 0 0).1] at numbers
      rw [BitVec.eq_of_toNat_eq numbers]
  | [a, b], [d, e], _, _ =>
      rw [(toNat_leftOver a b 0).2.1, (toNat_leftOver d e 0).2.1] at numbers
      have := a.isLt
      have := d.isLt
      rw [BitVec.eq_of_toNat_eq (show a.toNat = d.toNat by omega),
        BitVec.eq_of_toNat_eq (show b.toNat = e.toNat by omega)]
  | [a, b, c], [d, e, f], _, _ =>
      rw [(toNat_leftOver a b c).2.2, (toNat_leftOver d e f).2.2] at numbers
      have := a.isLt
      have := b.isLt
      have := d.isLt
      have := e.isLt
      rw [BitVec.eq_of_toNat_eq (show a.toNat = d.toNat by omega),
        BitVec.eq_of_toNat_eq (show b.toNat = e.toNat by omega),
        BitVec.eq_of_toNat_eq (show c.toNat = f.toNat by omega)]

/-! ## The loop -/

/-- A string is taken four bytes at a time. -/
theorem fours {motive : Slice → Prop} (short : ∀ data, data.length < 4 → motive data)
    (group : ∀ first second third fourth rest, motive rest →
      motive (first :: second :: third :: fourth :: rest)) : ∀ data, motive data
  | [] => short [] (Nat.zero_lt_succ _)
  | [_] => short [_] (Nat.lt_of_sub_pos (Nat.zero_lt_succ 2))
  | [_, _] => short [_, _] (Nat.lt_of_sub_pos (Nat.zero_lt_succ 1))
  | [_, _, _] => short [_, _, _] (Nat.lt_of_sub_pos (Nat.zero_lt_succ 0))
  | first :: second :: third :: fourth :: rest =>
      group first second third fourth rest (fours short group rest)

theorem hashLoop_short (h : BitVec 32) {data : Slice} (short : data.length < 4) :
    hashLoop h data = hashRest h data := by
  match data, short with
  | [], _ => rfl
  | [_], _ => rfl
  | [_, _], _ => rfl
  | [_, _, _], _ => rfl

/-- The loop permutes what it starts with. -/
theorem hashLoop_inj (rest : Slice) {left right : BitVec 32}
    (same : hashLoop left rest = hashLoop right rest) : left = right := by
  induction rest using fours generalizing left right with
  | short data short =>
      rw [hashLoop_short left short, hashLoop_short right short] at same
      exact (BitVec.add_left_inj _).mp (hashRest_inj rfl short same)
  | group first second third fourth rest ih =>
      rw [hashLoop_word, hashLoop_word] at same
      exact (BitVec.add_left_inj _).mp (hashWord_inj (ih same))

/-- Whole groups in front of others only change what the loop goes on with. -/
theorem hashLoop_front (h : BitVec 32) {front : Slice} (aligned : front.length % 4 = 0) :
    ∃ inner, ∀ rest, hashLoop h (front ++ rest) = hashLoop inner rest := by
  induction front using fours generalizing h with
  | short data short =>
      have empty : data = [] := by
        rw [← List.length_eq_zero_iff]
        omega
      exact ⟨h, fun rest => by rw [empty, List.nil_append]⟩
  | group first second third fourth front ih =>
      obtain ⟨inner, goes⟩ := ih (hashWord h (decodeFixed32 [first, second, third, fourth])) (by
        simp only [List.length_cons] at aligned
        omega)
      exact ⟨inner, goes⟩

/-- Where the loop comes to the group in the middle of a key of a given length. -/
theorem hash_front (seed : BitVec 32) {front : Slice} (aligned : front.length % 4 = 0)
    (length : Nat) :
    ∃ inner, ∀ rest : Slice, rest.length = length →
      hash (front ++ rest) seed = hashLoop inner rest := by
  obtain ⟨inner, goes⟩ :=
    hashLoop_front (seed ^^^ (BitVec.ofNat 32 (front.length + length) * 0xc6a4a793)) aligned
  refine ⟨inner, fun rest same => ?_⟩
  rw [hash, List.length_append, same, goes]

theorem hash_group_inj (seed : BitVec 32) {front back group other : Slice}
    (aligned : front.length % 4 = 0) (four : group.length = 4) (alsoFour : other.length = 4)
    (same : hash (front ++ group ++ back) seed = hash (front ++ other ++ back) seed) :
    group = other := by
  obtain ⟨inner, goes⟩ := hash_front seed aligned (4 + back.length)
  rw [List.append_assoc, List.append_assoc, goes _ (by rw [List.length_append, four]),
    goes _ (by rw [List.length_append, alsoFour])] at same
  match group, other, four, alsoFour with
  | [a, b, c, d], [e, f, g, h], _, _ =>
      have words := (BitVec.add_right_inj _).mp (hashWord_inj (hashLoop_inj back same))
      rw [← encodeFixed32_decodeFixed32 a b c d [], words, encodeFixed32_decodeFixed32]

theorem hash_tail_inj (seed : BitVec 32) {front group other : Slice}
    (aligned : front.length % 4 = 0) (lengths : group.length = other.length)
    (short : group.length < 4) (same : hash (front ++ group) seed = hash (front ++ other) seed) :
    group = other := by
  obtain ⟨inner, goes⟩ := hash_front seed aligned group.length
  rw [goes _ rfl, goes _ lengths.symm, hashLoop_short inner short,
    hashLoop_short inner (lengths ▸ short)] at same
  exact leftOver_inj lengths short ((BitVec.add_right_inj _).mp (hashRest_inj lengths short same))

/-! ## How many keys go to a shard -/

/-- What holds of so many numbers holds so often of their images under a permutation. -/
theorem card_filter_injOn {size : Nat} {map : Nat → Nat} (closed : ∀ number, map number < size)
    (inj : ∀ first < size, ∀ second < size, map first = map second → first = second)
    (among : Nat → Prop) [DecidablePred among] :
    ((Finset.range size).filter fun number => among (map number)).card =
      ((Finset.range size).filter among).card := by
  have injOn : Set.InjOn map (Finset.range size) := fun first early second alsoEarly =>
    inj first (Finset.mem_range.mp early) second (Finset.mem_range.mp alsoEarly)
  have all : (Finset.range size).image map = Finset.range size := by
    refine Finset.eq_of_subset_of_card_le ?_ ?_
    · intro number member
      obtain ⟨source, _, rfl⟩ := Finset.mem_image.mp member
      exact Finset.mem_range.mpr (closed source)
    · rw [Finset.card_image_of_injOn injOn]
  rw [← Finset.card_image_of_injOn (injOn.mono (Finset.coe_subset.mpr (Finset.filter_subset _ _)))]
  rw [← Finset.filter_image, all]

theorem card_filter_div {shards count index : Nat} (positive : 0 < count)
    (inside : index < shards) :
    ((Finset.range (shards * count)).filter fun number => number / count = index).card = count := by
  have part : ((Finset.range (shards * count)).filter fun number => number / count = index) =
      Finset.Ico (index * count) (index * count + count) := by
    have last : (index + 1) * count ≤ shards * count := Nat.mul_le_mul_right count inside
    ext number
    rw [Finset.mem_filter, Finset.mem_range, Finset.mem_Ico, Nat.div_eq_iff positive]
    rw [Nat.add_mul, Nat.one_mul] at last
    omega
  rw [part, Nat.card_Ico, Nat.add_sub_cancel_left]

theorem shardOf_val (hash : BitVec 32) : (shardOf hash : Nat) = hash.toNat / 2 ^ 28 := by
  change (hash >>> 28).toNat = _
  rw [BitVec.toNat_ushiftRight, Nat.shiftRight_eq_div_pow]

/-- Of the numbers of four bytes, as many go to each shard when the rest of the key is given. -/
theorem card_shardOf (seed : BitVec 32) {front : Slice} (back : Slice)
    (aligned : front.length % 4 = 0) (shard : ShardIndex) :
    ((Finset.range (2 ^ 32)).filter fun number =>
      shardOf (hash (front ++ encodeFixed32 (BitVec.ofNat 32 number) ++ back) seed) =
        shard).card = 2 ^ 28 := by
  let place (number : Nat) : Nat :=
    (hash (front ++ encodeFixed32 (BitVec.ofNat 32 number) ++ back) seed).toNat
  have closed : ∀ number, place number < 2 ^ 32 := fun number => BitVec.isLt _
  have inj : ∀ first < 2 ^ 32, ∀ second < 2 ^ 32, place first = place second → first = second := by
    intro first early second alsoEarly same
    have groups := hash_group_inj seed aligned rfl rfl (BitVec.eq_of_toNat_eq same)
    have words := congrArg decodeFixed32 groups
    have read := fun word => decodeFixed32_encodeFixed32 word []
    simp only [List.append_nil] at read
    rw [read, read] at words
    have numbers := congrArg BitVec.toNat words
    rw [BitVec.toNat_ofNat, BitVec.toNat_ofNat, Nat.mod_eq_of_lt early,
      Nat.mod_eq_of_lt alsoEarly] at numbers
    exact numbers
  have counted := card_filter_injOn closed inj fun number => number / 2 ^ 28 = shard
  have whole : 2 ^ 32 = 16 * 2 ^ 28 := Nat.pow_add 2 4 28
  have shards : ∀ number,
      shardOf (hash (front ++ encodeFixed32 (BitVec.ofNat 32 number) ++ back) seed) = shard ↔
        place number / 2 ^ 28 = shard := by
    intro number
    rw [Fin.ext_iff, shardOf_val]
  simp only [shards]
  rw [counted, whole]
  exact card_filter_div (Nat.two_pow_pos 28) shard.isLt

/-- Keys that differ in one group of four bytes, or in what is left over behind the groups,
do not collide, and of all keys that do so in a given group each shard gets the same
number. -/
theorem hash_groups (seed : BitVec 32) (front back : Slice) (aligned : front.length % 4 = 0) :
    (∀ group other : Slice, group.length = 4 → other.length = 4 →
      (hash (front ++ group ++ back) seed = hash (front ++ other ++ back) seed ↔
        group = other)) ∧
    (∀ group other : Slice, group.length = other.length → group.length < 4 →
      (hash (front ++ group) seed = hash (front ++ other) seed ↔ group = other)) ∧
    ∀ shard, ((Finset.range (2 ^ 32)).filter fun number =>
      shardOf (hash (front ++ encodeFixed32 (BitVec.ofNat 32 number) ++ back) seed) =
        shard).card = 2 ^ 28 := by
  refine ⟨fun group other four alsoFour => ?_, fun group other lengths short => ?_,
    card_shardOf seed back aligned⟩
  · constructor
    · exact hash_group_inj seed aligned four alsoFour
    · rintro rfl
      rfl
  · constructor
    · exact hash_tail_inj seed aligned lengths short
    · rintro rfl
      rfl

/-- Keys of six bytes that are the same up to the first four. -/
theorem hash_groups_six :
    (∀ group other : Slice, group.length = 4 → other.length = 4 →
      (hash ([] ++ group ++ [5, 6]) 0 = hash ([] ++ other ++ [5, 6]) 0 ↔ group = other)) ∧
    (∀ group other : Slice, group.length = other.length → group.length < 4 →
      (hash ([] ++ group) 0 = hash ([] ++ other) 0 ↔ group = other)) ∧
    ∀ shard, ((Finset.range (2 ^ 32)).filter fun number =>
      shardOf (hash ([] ++ encodeFixed32 (BitVec.ofNat 32 number) ++ [5, 6]) 0) =
        shard).card = 2 ^ 28 :=
  hash_groups 0 [] [5, 6] rfl

end MiniLevelDb
