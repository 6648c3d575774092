import MiniLevelDb.Util.Comparator

/-!
# Separators and successors of keys

The bytewise comparator shortens keys by cutting them behind a byte that it increments.
A separator is cut at the first byte in which two keys differ, and only if the
incremented byte stays below the other; a successor at the first byte that can be
incremented at all, and no shorter string is above the key.
-/

namespace MiniLevelDb

open BytewiseComparatorImpl

variable {start limit key other : Slice}

/-- A common prefix plays no part in the order. -/
theorem append_lt_append_iff (common left right : Slice) :
    common ++ left < common ++ right ↔ left < right := by
  induction common with
  | nil => exact Iff.rfl
  | cons byte rest ih => simp [ih]

/-- The strings have the first `diffIndex` bytes in common, and differ in the next one if
both have one. -/
theorem diffIndex_split (start limit : Slice) :
    ∃ common left right, start = common ++ left ∧ limit = common ++ right ∧
      diffIndex start limit = common.length ∧
      ∀ byte other, left.head? = some byte → right.head? = some other → byte ≠ other := by
  induction start generalizing limit with
  | nil => exact ⟨[], [], limit, rfl, rfl, rfl, by simp⟩
  | cons byte start ih =>
      cases limit with
      | nil => exact ⟨[], byte :: start, [], rfl, rfl, rfl, by simp⟩
      | cons other limit =>
          by_cases same : byte = other
          · subst same
            obtain ⟨common, left, right, rfl, rfl, index, differ⟩ := ih limit
            refine ⟨byte :: common, left, right, rfl, rfl, ?_, differ⟩
            rw [diffIndex, if_pos rfl, index, List.length_cons]
          · refine ⟨[], byte :: start, other :: limit, rfl, rfl, ?_, ?_⟩
            · rw [diffIndex, if_neg same, List.length_nil]
            · rintro _ _ ⟨⟩ ⟨⟩
              exact same

/-- A negative answer of the bytewise comparison means that the first key is below. -/
theorem bytewise_neg_iff (left right : Slice) :
    BytewiseComparatorImpl.compare left right < 0 ↔ left < right := by
  by_cases same : left = right
  · subst same
    rw [show BytewiseComparatorImpl.compare left left = 1 from Slice.compare_self left]
    exact iff_of_false (by decide) (List.lt_irrefl _)
  · rcases bytewise_sign_of_ne same with ⟨sign, -, less, -⟩ | ⟨sign, -, -, notLess⟩
    · exact iff_of_true sign less
    · exact iff_of_false (Int.not_lt.mpr (Int.le_of_lt sign)) notLess

theorem getD_middle (common rest : Slice) (byte : Byte) :
    (common ++ byte :: rest).getD common.length 0 = byte := by
  simp [List.getD_eq_getElem?_getD]

theorem lt_incremented {byte : Byte} (room : byte.toNat + 1 < 2 ^ 8) (common rest : Slice) :
    common ++ byte :: rest < common ++ [byte + 1] := by
  rw [append_lt_append_iff, List.cons_lt_cons_iff, BitVec.lt_def, BitVec.toNat_add_of_lt room]
  exact .inl (Nat.lt_succ_self _)

theorem incremented_lt {byte other : Byte} (room : byte.toNat + 1 < other.toNat)
    (common rest : Slice) : common ++ [byte + 1] < common ++ other :: rest := by
  have bound := other.isLt
  rw [append_lt_append_iff, List.cons_lt_cons_iff, BitVec.lt_def,
    BitVec.toNat_add_of_lt (show byte.toNat + 1 < 2 ^ 8 by omega)]
  exact .inl room

/-- What `FindShortestSeparator` can do: leave the key as it is, or cut it behind the first
byte in which it differs from the limit. -/
inductive Separates : Slice → Slice → Slice → Prop where
  | unchanged (start limit : Slice) : Separates start limit start
  | cut {common left right : Slice} {byte other : Byte} (room : byte.toNat + 1 < other.toNat) :
      Separates (common ++ byte :: left) (common ++ other :: right) (common ++ [byte + 1])

/-- `FindShortestSeparator` does one of both, and its assertion holds. -/
theorem findShortestSeparator_separates (start limit : Slice) :
    Separates start limit (findShortestSeparator start limit) ∧
      findShortestSeparatorAsserted start limit = some (findShortestSeparator start limit) := by
  suffices found : ∃ shortest, findShortestSeparatorAsserted start limit = some shortest ∧
      Separates start limit shortest by
    obtain ⟨shortest, asserted, separates⟩ := found
    rw [findShortestSeparator, asserted]
    exact ⟨separates, rfl⟩
  obtain ⟨common, left, right, rfl, rfl, index, differ⟩ := diffIndex_split start limit
  unfold findShortestSeparatorAsserted
  simp only [index]
  split
  · exact ⟨_, rfl, .unchanged _ _⟩
  · rename_i within
    cases left with
    | nil => simp at within
    | cons byte left =>
        cases right with
        | nil => simp at within
        | cons other right =>
            rw [getD_middle, getD_middle, List.take_left]
            split
            · rename_i room
              refine ⟨_, if_pos ?_, .cut room.2⟩
              exact (bytewise_neg_iff _ _).mpr (incremented_lt room.2 common right)
            · exact ⟨_, rfl, .unchanged _ _⟩

/-- A key that was cut lies strictly between. -/
theorem Separates.between {shortest : Slice} (separates : Separates start limit shortest) :
    shortest = start ∨
      (start < shortest ∧ shortest < limit ∧ shortest.length ≤ start.length) := by
  cases separates with
  | unchanged => exact .inl rfl
  | @cut common left right byte other room =>
      have bound := other.isLt
      exact .inr ⟨lt_incremented (by omega) common left, incremented_lt room common right,
        by simp⟩

/-- What `FindShortSuccessor` does: leave a key of bytes `0xff` as it is, or cut it behind
the first other byte. -/
theorem findShortSuccessor_split (key : Slice) :
    (findShortSuccessor key = key ∧ ∀ byte ∈ key, byte = 0xff#8) ∨
      ∃ front byte rest, key = front ++ byte :: rest ∧ (∀ other ∈ front, other = 0xff#8) ∧
        byte ≠ 0xff#8 ∧ findShortSuccessor key = front ++ [byte + 1] := by
  induction key with
  | nil => exact .inl ⟨rfl, by simp⟩
  | cons byte rest ih =>
      by_cases full : byte = 0xff#8
      · rw [findShortSuccessor, if_neg (not_not.mpr full)]
        rcases ih with ⟨same, all⟩ | ⟨front, cut, rest, rfl, all, differs, result⟩
        · exact .inl ⟨by rw [same], List.forall_mem_cons.mpr ⟨full, all⟩⟩
        · exact .inr ⟨byte :: front, cut, rest, rfl, List.forall_mem_cons.mpr ⟨full, all⟩,
            differs, by rw [result]; rfl⟩
      · rw [findShortSuccessor, if_pos full]
        exact .inr ⟨[], byte, rest, rfl, by simp, full, rfl⟩

/-- A string that is not longer than a number of bytes `0xff` is below what extends them. -/
theorem lt_of_shorter {front rest : Slice} (all : ∀ byte ∈ front, byte = 0xff#8)
    (within : other.length ≤ front.length) (shorter : other.length < (front ++ rest).length) :
    other < front ++ rest := by
  induction front generalizing other with
  | nil =>
      obtain rfl := List.length_eq_zero_iff.mp (Nat.le_zero.mp within)
      cases rest with
      | nil => cases shorter
      | cons byte rest => exact List.nil_lt_cons byte rest
  | cons byte front ih =>
      cases other with
      | nil => exact List.nil_lt_cons _ _
      | cons first others =>
          rw [List.cons_append, List.cons_lt_cons_iff]
          have full := all byte List.mem_cons_self
          by_cases same : first = byte
          · refine .inr ⟨same, ih (fun later member => ?_) (by simpa using within)
              (by simpa using shorter)⟩
            exact all later (List.mem_cons_of_mem byte member)
          · refine .inl ?_
            have bound := first.isLt
            have apart : first.toNat ≠ 255 := fun top =>
              same (full ▸ BitVec.eq_of_toNat_eq top)
            rw [full, BitVec.lt_def]
            show first.toNat < 255
            omega

theorem findShortSuccessor_least (key : Slice) :
    (key = findShortSuccessor key ∨ key < findShortSuccessor key) ∧
      (findShortSuccessor key = key ↔ ∀ byte ∈ key, byte = 0xff#8) ∧
      ∀ other, key = other ∨ key < other → (findShortSuccessor key).length ≤ other.length := by
  rcases findShortSuccessor_split key with ⟨same, all⟩ | ⟨front, byte, rest, rfl, all, cut, result⟩
  · refine ⟨.inl same.symm, iff_of_true same all, fun other above => ?_⟩
    rw [same]
    by_contra shorter
    have below := @lt_of_shorter other key [] all (by omega) (by simp; omega)
    rw [List.append_nil] at below
    rcases above with rfl | above
    · exact List.lt_irrefl _ below
    · exact List.lt_asymm below above
  · have bound := byte.isLt
    have room : byte.toNat + 1 < 2 ^ 8 := by
      have apart : byte.toNat ≠ 255 := fun top => cut (BitVec.eq_of_toNat_eq top)
      omega
    have above := lt_incremented room front rest
    rw [result]
    refine ⟨.inr above, iff_of_false (fun same => ?_) (fun same => ?_), fun other higher => ?_⟩
    · rw [same] at above
      exact List.lt_irrefl _ above
    · exact cut (same byte (by simp))
    · by_contra shorter
      have below := @lt_of_shorter other front (byte :: rest) all
        (by simp at shorter; omega) (by simp at shorter ⊢; omega)
      rcases higher with rfl | higher
      · exact List.lt_irrefl _ below
      · exact List.lt_asymm below higher

/-- The separators and successors of the bytewise comparator: a separator lies between the
keys and is not longer, and a successor is the shortest string that is not below. -/
theorem bytewise_shortens :
    (∀ start limit shortest : Slice,
      shortest = bytewiseComparator.findShortestSeparator start limit →
      findShortestSeparatorAsserted start limit = some shortest ∧
        (start = shortest ∨ start < shortest) ∧ shortest.length ≤ start.length ∧
        (start < limit → shortest < limit) ∧ (¬ start < limit → shortest = start)) ∧
    ∀ key shortest : Slice, shortest = bytewiseComparator.findShortSuccessor key →
      (key = shortest ∨ key < shortest) ∧ (shortest = key ↔ ∀ byte ∈ key, byte = 0xff#8) ∧
        ∀ other, key = other ∨ key < other → shortest.length ≤ other.length := by
  constructor
  · rintro start limit _ rfl
    obtain ⟨separates, asserted⟩ := findShortestSeparator_separates start limit
    refine ⟨asserted, ?_⟩
    rcases separates.between with same | ⟨above, below, shorter⟩
    · rw [show bytewiseComparator.findShortestSeparator start limit = start from same]
      exact ⟨.inl rfl, Nat.le_refl _, id, fun _ => rfl⟩
    · exact ⟨.inr above, shorter, fun _ => below,
        fun beyond => absurd (List.lt_trans above below) beyond⟩
  · rintro key _ rfl
    exact findShortSuccessor_least key

theorem bytewise_shortens_between :
    findShortestSeparatorAsserted [97, 98, 99] [97, 104] = some [97, 99] ∧
      ([97, 98, 99] : Slice) < [97, 99] := by
  obtain ⟨asserted, above, -⟩ := bytewise_shortens.1 [97, 98, 99] [97, 104] [97, 99] (by decide)
  exact ⟨asserted, above.resolve_left (by decide)⟩

end MiniLevelDb
