import MiniLevelDb.Foundation.BitArray
import MiniLevelDb.Util.Hash
import Mathlib.Data.List.GetD

/-!
# Bloom filters

`BloomFilterPolicy`. A filter is an array of bits, and in its last byte the number of
probes. The builder takes the number of bits from the keys and the policy, the matcher
from the length of the filter.
-/

namespace MiniLevelDb

open Foundation

/-- `BloomHash`. -/
def bloomHash (key : Slice) : BitVec 32 := hash key 0xbc9f1d34

/-- The `int` that the policy was made with, and the number of probes. -/
structure BloomFilterPolicy where
  bitsPerKey : Nat
  k : Nat
  isInt : bitsPerKey < 2 ^ 31
  atLeastOne : 1 ≤ k
  atMostThirty : k ≤ 30

namespace BloomFilterPolicy

/-- The constructor; `product` is the floating-point product `bits_per_key * 0.69`, cast
to an integer. -/
def new (bitsPerKey : Nat) (isInt : bitsPerKey < 2 ^ 31) (product : Nat) :
    BloomFilterPolicy where
  bitsPerKey := bitsPerKey
  k :=
    let k := if product < 1 then 1 else product
    if k > 30 then 30 else k
  isInt := isInt
  atLeastOne := by grind
  atMostThirty := by grind

/-- The step between two probes. -/
def delta (h : BitVec 32) : BitVec 32 := (h >>> 17) ||| (h <<< 15)

/-- `array[bitpos / 8] |= (1 << (bitpos % 8))`, where the array starts in `dst` at
`initSize`. -/
def orBit (dst : Slice) (initSize bitpos : Nat) : Slice :=
  dst.modify (initSize + bitpos / 8) (· ||| 1#8 <<< (bitpos % 8))

/-- The loop over the probes of one key. -/
def addProbes (initSize bits : Nat) (delta : BitVec 32) : Nat → BitVec 32 → Slice → Slice
  | 0, _, dst => dst
  | count + 1, h, dst =>
      addProbes initSize bits delta count (h + delta) (orBit dst initSize (h.toNat % bits))

/-- The number of bytes of the bit array for so many keys, in the arithmetic of
`size_t`. -/
def filterBytes (policy : BloomFilterPolicy) (n : Nat) : Nat :=
  let bits := n * policy.bitsPerKey % 2 ^ 64
  let bits := if bits < 64 then 64 else bits
  (bits + 7) % 2 ^ 64 / 8

/-- `CreateFilter`. -/
def createFilter (policy : BloomFilterPolicy) (keys : List Slice) (dst : Slice) : Slice :=
  let bytes := policy.filterBytes keys.length
  let bits := bytes * 8 % 2 ^ 64
  let initSize := dst.length
  keys.foldl
    (fun dst key =>
      addProbes initSize bits (delta (bloomHash key)) policy.k (bloomHash key) dst)
    (dst ++ List.replicate bytes 0#8 ++ [BitVec.ofNat 8 policy.k])

/-- The loop over the probes in `KeyMayMatch`. -/
def matchProbes (array : Slice) (bits : Nat) (delta : BitVec 32) : Nat → BitVec 32 → Bool
  | 0, _ => true
  | count + 1, h =>
      let bitpos := h.toNat % bits
      if array.getD (bitpos / 8) 0 &&& 1#8 <<< (bitpos % 8) = 0#8 then false
      else matchProbes array bits delta count (h + delta)

/-- `KeyMayMatch`; the last byte of the filter is a signed `char`. -/
def keyMayMatch (_policy : BloomFilterPolicy) (key bloomFilter : Slice) : Bool :=
  let len := bloomFilter.length
  if len < 2 then false
  else
    let bits := (len - 1) * 8 % 2 ^ 64
    let k := ((bloomFilter.getD (len - 1) 0).signExtend 64).toNat
    if k > 30 then true
    else matchProbes bloomFilter bits (delta (bloomHash key)) k (bloomHash key)

/-- The positions that a key is looked for at: from its hash on, in steps of the hash
rotated by 17 bits. -/
def probes (k bits : Nat) (key : Slice) : List Nat :=
  (List.range k).map fun j =>
    (bloomHash key + BitVec.ofNat 32 j * (bloomHash key).rotateRight 17).toNat % bits

/-- The bit array with the probes of the keys. -/
def bitArray (policy : BloomFilterPolicy) (keys : List Slice) : Slice :=
  (keys.flatMap (probes policy.k (8 * policy.filterBytes keys.length))).foldl BitArray.setBit
    (List.replicate (policy.filterBytes keys.length) 0#8)

section Probes

variable {policy : BloomFilterPolicy} {array : Slice} {bits : Nat}

theorem probes_lt (positive : 0 < bits) {k position : Nat} {key : Slice}
    (member : position ∈ probes k bits key) : position < bits := by
  obtain ⟨j, -, rfl⟩ := List.mem_map.mp member
  exact Nat.mod_lt _ positive

/-- The first probe, and the others from the next hash on. -/
theorem range_probes (h step : BitVec 32) (count : Nat) :
    ((List.range (count + 1)).map fun j => (h + BitVec.ofNat 32 j * step).toNat % bits) =
      h.toNat % bits ::
        (List.range count).map fun j => (h + step + BitVec.ofNat 32 j * step).toNat % bits := by
  rw [List.range_succ_eq_map, List.map_cons, List.map_map]
  congr 1
  · simp
  · refine List.map_congr_left fun j _ => ?_
    have next : BitVec.ofNat 32 (j + 1) * step = step + BitVec.ofNat 32 j * step := by
      rw [BitVec.ofNat_add, BitVec.add_mul, BitVec.one_mul, BitVec.add_comm]
    simp only [Function.comp_apply, Nat.succ_eq_add_one, next, BitVec.add_assoc]

theorem orBit_middle (dst after : Slice) {bitpos : Nat} (inside : bitpos < 8 * array.length) :
    orBit (dst ++ array ++ after) dst.length bitpos =
      dst ++ BitArray.setBit array bitpos ++ after :=
  BitArray.modify_middle (Nat.div_lt_of_lt_mul inside) dst after _

theorem addProbes_eq (dst after : Slice) (sized : bits = 8 * array.length) (positive : 0 < bits)
    (step : BitVec 32) (count : Nat) (h : BitVec 32) :
    addProbes dst.length bits step count h (dst ++ array ++ after) =
      dst ++ ((List.range count).map fun j =>
        (h + BitVec.ofNat 32 j * step).toNat % bits).foldl BitArray.setBit array ++ after := by
  induction count generalizing h array with
  | zero => rfl
  | succ count ih =>
      have inside : h.toNat % bits < 8 * array.length := sized ▸ Nat.mod_lt _ positive
      rw [addProbes, orBit_middle dst after inside, range_probes, List.foldl_cons]
      exact ih (by rw [BitArray.length_setBit, sized]) _

theorem foldl_addProbes_eq (dst after : Slice) (sized : bits = 8 * array.length)
    (positive : 0 < bits) (k : Nat) (keys : List Slice) :
    keys.foldl
      (fun dst' key => addProbes dst.length bits (delta (bloomHash key)) k (bloomHash key) dst')
      (dst ++ array ++ after) =
    dst ++ (keys.flatMap (probes k bits)).foldl BitArray.setBit array ++ after := by
  induction keys generalizing array with
  | nil => rfl
  | cons key rest ih =>
      rw [List.foldl_cons, addProbes_eq dst after sized positive, List.flatMap_cons,
        List.foldl_append]
      exact ih (by rw [BitArray.length_foldl_setBit, sized])

theorem matchProbes_iff (after : Slice) (sized : bits = 8 * array.length) (positive : 0 < bits)
    (step : BitVec 32) (count : Nat) (h : BitVec 32) :
    matchProbes (array ++ after) bits step count h = true ↔
      ∀ position ∈ (List.range count).map fun j =>
        (h + BitVec.ofNat 32 j * step).toNat % bits,
        BitArray.testBit array position = true := by
  induction count generalizing h with
  | zero => simp [matchProbes]
  | succ count ih =>
      have inside : h.toNat % bits / 8 < array.length :=
        Nat.div_lt_of_lt_mul (sized ▸ Nat.mod_lt _ positive)
      have place := Nat.mod_lt (h.toNat % bits) (by decide : 0 < 8)
      rw [range_probes, List.forall_mem_cons, ← ih, matchProbes,
        List.getD_append _ _ _ _ inside, BitArray.testBit]
      simp only [BitArray.and_mask_eq_zero_iff place]
      cases (array.getD (h.toNat % bits / 8) 0).getLsbD (h.toNat % bits % 8) <;> simp

/-- There are at least eight bytes, and the number of bits does not wrap around. -/
theorem filterBytes_bounds (policy : BloomFilterPolicy) {n : Nat} (isInt : n < 2 ^ 31) :
    8 ≤ policy.filterBytes n ∧ policy.filterBytes n * 8 < 2 ^ 64 := by
  have product : n * policy.bitsPerKey ≤ 2 ^ 31 * 2 ^ 31 :=
    Nat.mul_le_mul isInt.le policy.isInt.le
  unfold filterBytes
  dsimp only
  split <;> omega

/-- The last byte of a filter is a number of probes that `KeyMayMatch` accepts. -/
theorem signExtend_k (policy : BloomFilterPolicy) :
    ((BitVec.ofNat 8 policy.k).signExtend 64).toNat = policy.k := by
  have small : ∀ k ≤ 30, ((BitVec.ofNat 8 k).signExtend 64).toNat = k := by decide
  exact small policy.k policy.atMostThirty

/-- What `CreateFilter` appends. -/
theorem createFilter_eq (policy : BloomFilterPolicy) {keys : List Slice}
    (isInt : keys.length < 2 ^ 31) (dst : Slice) :
    policy.createFilter keys dst =
      dst ++ (policy.bitArray keys ++ [BitVec.ofNat 8 policy.k]) := by
  obtain ⟨some_, bounded⟩ := policy.filterBytes_bounds isInt
  have bits : policy.filterBytes keys.length * 8 % 2 ^ 64 = 8 * policy.filterBytes keys.length := by
    rw [Nat.mod_eq_of_lt bounded, Nat.mul_comm]
  rw [createFilter, bits, foldl_addProbes_eq dst _ (by rw [List.length_replicate]) (by omega),
    List.append_assoc, bitArray]

theorem keyMayMatch_iff (reader policy : BloomFilterPolicy) {key : Slice}
    (some_ : 8 ≤ array.length) (bounded : array.length * 8 < 2 ^ 64) :
    reader.keyMayMatch key (array ++ [BitVec.ofNat 8 policy.k]) = true ↔
      ∀ position ∈ probes policy.k (8 * array.length) key,
        BitArray.testBit array position = true := by
  have bits : array.length * 8 % 2 ^ 64 = 8 * array.length := by
    rw [Nat.mod_eq_of_lt bounded, Nat.mul_comm]
  have last : (array ++ [BitVec.ofNat 8 policy.k]).getD array.length 0 =
      BitVec.ofNat 8 policy.k := by
    rw [List.getD_append_right _ _ _ _ (Nat.le_refl _), Nat.sub_self, List.getD_cons_zero]
  have count := policy.atMostThirty
  rw [keyMayMatch, List.length_append, List.length_singleton, if_neg (by omega),
    Nat.add_sub_cancel, bits, last, signExtend_k, if_neg (by omega),
    matchProbes_iff _ rfl (by omega)]
  rfl

/-- A key may match a filter exactly if each of its probes is one of a listed key. -/
theorem keyMayMatch_built_iff (reader policy : BloomFilterPolicy) (keys : List Slice)
    (isInt : keys.length < 2 ^ 31) (dst filter key : Slice)
    (built : policy.createFilter keys dst = dst ++ filter) :
    filter.length = policy.filterBytes keys.length + 1 ∧
    (reader.keyMayMatch key filter = true ↔
      ∀ position ∈ probes policy.k (8 * (filter.length - 1)) key,
        ∃ listed ∈ keys, position ∈ probes policy.k (8 * (filter.length - 1)) listed) := by
  obtain ⟨some_, bounded⟩ := policy.filterBytes_bounds isInt
  rw [policy.createFilter_eq isInt, List.append_cancel_left_eq] at built
  subst built
  have length : (policy.bitArray keys).length = policy.filterBytes keys.length := by
    rw [bitArray, BitArray.length_foldl_setBit, List.length_replicate]
  rw [List.length_append, List.length_singleton, length, Nat.add_sub_cancel]
  refine ⟨rfl, ?_⟩
  rw [keyMayMatch_iff reader policy (by omega) (by omega), length]
  refine forall₂_congr fun position member => ?_
  rw [bitArray, BitArray.testBit_foldl_setBit, BitArray.testBit_replicate, List.mem_flatMap]
  · simp
  · intro other among
    obtain ⟨listed, -, probed⟩ := List.mem_flatMap.mp among
    rw [List.length_replicate]
    exact probes_lt (by omega) probed

end Probes

/-- `CreateFilter` leaves what `dst` held in front of the filter, and a filter answers
exactly for the probes of its keys, in whichever order these were listed. -/
theorem createFilter_exact (policy : BloomFilterPolicy) (keys : List Slice)
    (isInt : keys.length < 2 ^ 31) (dst : Slice) :
    ∃ filter, policy.createFilter keys dst = dst ++ filter ∧
      ∀ reader : BloomFilterPolicy,
        (∀ key, reader.keyMayMatch key filter = true ↔
          ∀ position ∈ probes policy.k (8 * (filter.length - 1)) key,
            ∃ listed ∈ keys, position ∈ probes policy.k (8 * (filter.length - 1)) listed) ∧
        (∀ key ∈ keys, reader.keyMayMatch key filter = true) ∧
        ∀ (reordered : List Slice) (dst' filter' : Slice), reordered.Perm keys →
          policy.createFilter reordered dst' = dst' ++ filter' →
          ∀ key, reader.keyMayMatch key filter' = reader.keyMayMatch key filter := by
  refine ⟨_, policy.createFilter_eq isInt dst, fun reader => ?_⟩
  have exact_ := fun key => reader.keyMayMatch_built_iff policy keys isInt dst _ key
    (policy.createFilter_eq isInt dst)
  generalize policy.bitArray keys ++ [BitVec.ofNat 8 policy.k] = filter at exact_ ⊢
  refine ⟨fun key => (exact_ key).2, fun key listed => ?_, ?_⟩
  · rw [(exact_ key).2]
    exact fun position member => ⟨key, listed, member⟩
  · intro reordered dst' filter' same built key
    have answers := reader.keyMayMatch_built_iff policy reordered (same.length_eq ▸ isInt) dst'
      filter' key built
    have length : filter'.length = filter.length := by
      rw [answers.1, (exact_ key).1, same.length_eq]
    rw [Bool.eq_iff_iff, answers.2, (exact_ key).2, length]
    simp only [same.mem_iff]

/-- Two keys at ten bits each, behind two bytes of another filter. -/
theorem createFilter_exact_two :
    let policy := new 10 (by decide) 6
    let keys : List Slice := [[0x68, 0x69], [0x79, 0x6f, 0x75]]
    policy.k = 6 ∧ ∃ filter, policy.createFilter keys [1, 2] = [1, 2] ++ filter ∧
      ∀ reader : BloomFilterPolicy,
        (∀ key, reader.keyMayMatch key filter = true ↔
          ∀ position ∈ probes policy.k (8 * (filter.length - 1)) key,
            ∃ listed ∈ keys, position ∈ probes policy.k (8 * (filter.length - 1)) listed) ∧
        (∀ key ∈ keys, reader.keyMayMatch key filter = true) ∧
        ∀ (reordered : List Slice) (dst' filter' : Slice), reordered.Perm keys →
          policy.createFilter reordered dst' = dst' ++ filter' →
          ∀ key, reader.keyMayMatch key filter' = reader.keyMayMatch key filter :=
  ⟨rfl, createFilter_exact _ _ (by decide) _⟩

end BloomFilterPolicy

end MiniLevelDb
