import MiniLevelDb.Db.InternalKey
import MiniLevelDb.Util.BytewiseSeparators

/-!
# The order of internal keys

Whatever comparator the user keys have, internal keys are compared by user key first, and
the versions of one user key from the newest to the oldest; on strings that are long
enough to be internal keys this is a three-way comparison again. A separator of two
internal keys is a separator of their user keys with the greatest tag there is, which
comes before every version of it.
-/

namespace MiniLevelDb

open Foundation

/-- The byte strings that have room for a tag. -/
abbrev LongKey := { key : Slice // 8 ≤ key.length }

/-- A version comes before another: its user key does, or it is the newer one. -/
def Precedes (user : Comparator) (left right : ParsedInternalKey) : Prop :=
  user.compare left.userKey right.userKey < 0 ∨
    (user.compare left.userKey right.userKey = 0 ∧
      (right.sequence < left.sequence ∨
        (right.sequence = left.sequence ∧ right.type.code < left.type.code)))

/-- Two versions that are not told apart. -/
def SameVersion (user : Comparator) (left right : ParsedInternalKey) : Prop :=
  user.compare left.userKey right.userKey = 0 ∧ left.sequence = right.sequence ∧
    left.type = right.type

namespace InternalKeyComparator

/-- The answer of the comparison, for strings that have a tag. -/
def sign (user : Comparator) (left right : LongKey) : Int :=
  if user.compare (left.1.take (left.1.length - 8)) (right.1.take (right.1.length - 8)) = 0 then
    (if (tagOf left.1).toNat > (tagOf right.1).toNat then -1
      else if (tagOf left.1).toNat < (tagOf right.1).toNat then 1 else 0)
  else user.compare (left.1.take (left.1.length - 8)) (right.1.take (right.1.length - 8))

theorem compare_eq_sign (user : Comparator) (left right : LongKey) :
    compare user left.1 right.1 = some (sign user left right) :=
  compare_eq user (if_pos left.2) (if_pos right.2)

theorem sign_threeWay {user : Comparator} (order : ThreeWay user.compare) :
    ThreeWay (sign user) := by
  have byKey : ThreeWay fun left right : LongKey =>
      user.compare (left.1.take (left.1.length - 8)) (right.1.take (right.1.length - 8)) :=
    order.comap
  have byTag : ThreeWay fun left right : LongKey =>
      if (tagOf left.1).toNat > (tagOf right.1).toNat then -1
        else if (tagOf left.1).toNat < (tagOf right.1).toNat then (1 : Int) else 0 :=
    ThreeWay.descending.comap
  exact byKey.thenBy byTag

/-- Tags are ordered like the pairs of sequence number and type. -/
theorem tag_lt_iff {left right : ParsedInternalKey} (leftSmall : left.sequence ≤ kMaxSequenceNumber)
    (rightSmall : right.sequence ≤ kMaxSequenceNumber) :
    (right.sequence <<< 8 ||| right.type.code).toNat <
        (left.sequence <<< 8 ||| left.type.code).toNat ↔
      right.sequence < left.sequence ∨
        (right.sequence = left.sequence ∧ right.type.code < left.type.code) := by
  rw [toNat_tag leftSmall, toNat_tag rightSmall, BitVec.lt_def, BitVec.lt_def, ← BitVec.toNat_inj]
  have leftCode : left.type.code.toNat < 2 := by cases left.type <;> decide
  have rightCode : right.type.code.toNat < 2 := by cases right.type <;> decide
  omega

theorem tag_eq_iff {left right : ParsedInternalKey} (leftSmall : left.sequence ≤ kMaxSequenceNumber)
    (rightSmall : right.sequence ≤ kMaxSequenceNumber) :
    (left.sequence <<< 8 ||| left.type.code).toNat =
        (right.sequence <<< 8 ||| right.type.code).toNat ↔
      left.sequence = right.sequence ∧ left.type = right.type := by
  have codes : left.type = right.type ↔ left.type.code.toNat = right.type.code.toNat := by
    cases left.type <;> cases right.type <;> simp [ValueType.code]
  rw [toNat_tag leftSmall, toNat_tag rightSmall, codes, ← BitVec.toNat_inj]
  have leftCode : left.type.code.toNat < 2 := by cases left.type <;> decide
  have rightCode : right.type.code.toNat < 2 := by cases right.type <;> decide
  omega

/-- The comparison of two encoded versions. -/
theorem compare_versions (user : Comparator) {left right : ParsedInternalKey}
    (leftSmall : left.sequence ≤ kMaxSequenceNumber)
    (rightSmall : right.sequence ≤ kMaxSequenceNumber) :
    ∃ result, compare user (internalKeyOf left.userKey (left.sequence <<< 8 ||| left.type.code))
        (internalKeyOf right.userKey (right.sequence <<< 8 ||| right.type.code)) = some result ∧
      (result < 0 ↔ Precedes user left right) ∧ (result = 0 ↔ SameVersion user left right) := by
  refine ⟨_, compare_eq user (extractUserKey_internalKeyOf _ _) (extractUserKey_internalKeyOf _ _),
    ?_⟩
  have newer := tag_lt_iff leftSmall rightSmall
  have same := tag_eq_iff leftSmall rightSmall
  rw [tagOf_internalKeyOf, tagOf_internalKeyOf, Precedes, SameVersion, ← newer, ← same]
  split
  · split
    · omega
    · split <;> omega
  · omega

/-- The comparison of internal keys is the documented order of versions on encoded ones, and
a three-way comparison of all strings that are long enough. -/
theorem compare_order {user : Comparator} (order : ThreeWay user.compare) :
    (∀ left right : ParsedInternalKey, left.sequence ≤ kMaxSequenceNumber →
      right.sequence ≤ kMaxSequenceNumber →
      ∃ leftKey rightKey result, appendInternalKey [] left = some leftKey ∧
        appendInternalKey [] right = some rightKey ∧
        compare user leftKey rightKey = some result ∧
        (result < 0 ↔ Precedes user left right) ∧
        (result = 0 ↔ SameVersion user left right) ∧
        (0 < result ↔ ¬ Precedes user left right ∧ ¬ SameVersion user left right)) ∧
    ∃ sign : LongKey → LongKey → Int,
      (∀ left right : LongKey, compare user left.1 right.1 = some (sign left right)) ∧
      ThreeWay sign ∧ Equivalence fun left right => sign left right = 0 := by
  refine ⟨fun left right leftSmall rightSmall => ?_, sign user, compare_eq_sign user,
    sign_threeWay order, (sign_threeWay order).equivalence⟩
  obtain ⟨result, compared, negative, zero⟩ := compare_versions user leftSmall rightSmall
  refine ⟨_, _, result, appendInternalKey_eq leftSmall [], appendInternalKey_eq rightSmall [],
    compared, negative, zero, ?_⟩
  rw [← negative, ← zero]
  omega

/-- Keys of one length are not told apart. -/
def byLength : Comparator :=
  { bytewiseComparator with
    compare := fun left right => (left.length : Int) - right.length }

theorem byLength_threeWay : ThreeWay byLength.compare where
  swap left right := by
    show (left.length : Int) - right.length < 0 ↔ 0 < (right.length : Int) - left.length
    omega
  trans left middle right := by
    show (left.length : Int) - middle.length ≤ 0 → (middle.length : Int) - right.length ≤ 0 →
      (left.length : Int) - right.length ≤ 0
    omega

/-- Of two keys that are not told apart, the newer version comes first. -/
theorem compare_order_byLength :
    ∃ leftKey rightKey result, appendInternalKey [] ⟨[97], 5, .kTypeDeletion⟩ = some leftKey ∧
      appendInternalKey [] ⟨[98], 3, .kTypeValue⟩ = some rightKey ∧
      compare byLength leftKey rightKey = some result ∧ result < 0 := by
  obtain ⟨leftKey, rightKey, result, left, right, compared, negative, -⟩ :=
    (compare_order byLength_threeWay).1 ⟨[97], 5, .kTypeDeletion⟩ ⟨[98], 3, .kTypeValue⟩
      (by decide) (by decide)
  refine ⟨leftKey, rightKey, result, left, right, compared, negative.mpr (.inr ⟨rfl, ?_⟩)⟩
  exact .inl (by decide)

/-- `InternalKeyComparator::FindShortestSeparator`. -/
def findShortestSeparator (user : Comparator) (start limit : Slice) : Option Slice := do
  let userStart ← extractUserKey start
  let userLimit ← extractUserKey limit
  let tmp := user.findShortestSeparator userStart userLimit
  if tmp.length < userStart.length ∧ user.compare userStart tmp < 0 then
    let tmp := putFixed64 tmp (← packSequenceAndType kMaxSequenceNumber kValueTypeForSeek)
    if (← compare user start tmp) < 0 ∧ (← compare user tmp limit) < 0 then some tmp else none
  else some start

/-- `InternalKeyComparator::FindShortSuccessor`. -/
def findShortSuccessor (user : Comparator) (key : Slice) : Option Slice := do
  let userKey ← extractUserKey key
  let tmp := user.findShortSuccessor userKey
  if tmp.length < userKey.length ∧ user.compare userKey tmp < 0 then
    let tmp := putFixed64 tmp (← packSequenceAndType kMaxSequenceNumber kValueTypeForSeek)
    if (← compare user key tmp) < 0 then some tmp else none
  else some key

end InternalKeyComparator

/-- An internal key comes before another in the order of the bytewise comparator: by user
key, and of one user key by descending tag. -/
def InternalBefore (left right : Slice) : Prop :=
  left.take (left.length - 8) < right.take (right.length - 8) ∨
    (left.take (left.length - 8) = right.take (right.length - 8) ∧
      (tagOf right).toNat < (tagOf left).toNat)

/-- The key is a user key shorter than that of `original`, with the tag of a search. -/
def ShorterWithSeekTag (original shortest : Slice) : Prop :=
  ∃ userKey, userKey.length < original.length - 8 ∧
    appendInternalKey [] ⟨userKey, kMaxSequenceNumber, kValueTypeForSeek⟩ = some shortest

namespace InternalKeyComparator

variable {start limit key shortened : Slice}

/-- The tag of a search. -/
def seekTag : BitVec 64 := kMaxSequenceNumber <<< 8 ||| kValueTypeForSeek.code

theorem packSeekTag : packSequenceAndType kMaxSequenceNumber kValueTypeForSeek = some seekTag :=
  packSequenceAndType_eq (BitVec.le_refl _) kValueTypeForSeek

theorem before_of_user_lt {userKey : Slice}
    (less : key.take (key.length - 8) < userKey) (tag : BitVec 64) :
    InternalBefore key (internalKeyOf userKey tag) := by
  refine .inl ?_
  simpa [internalKeyOf] using less

theorem before_of_lt_user {userKey : Slice}
    (less : userKey < key.take (key.length - 8)) (tag : BitVec 64) :
    InternalBefore (internalKeyOf userKey tag) key := by
  refine .inl ?_
  simpa [internalKeyOf] using less

/-- Keys whose user keys differ compare as these do. -/
theorem compare_neg {left right leftUser rightUser : Slice}
    (leftKey : extractUserKey left = some leftUser)
    (rightKey : extractUserKey right = some rightUser) (less : leftUser < rightUser) :
    ∃ result, compare bytewiseComparator left right = some result ∧ result < 0 := by
  have negative : bytewiseComparator.compare leftUser rightUser < 0 :=
    (bytewise_neg_iff leftUser rightUser).mpr less
  refine ⟨_, compare_eq bytewiseComparator leftKey rightKey, ?_⟩
  rw [if_neg (Int.ne_of_lt negative)]
  exact negative

/-- A shortened key is `user` with the tag of a search, and `user` lies above the user key. -/
structure Shortened (key user shortest : Slice) : Prop where
  above : key.take (key.length - 8) < user
  shorter : user.length < key.length - 8
  tagged : shortest = internalKeyOf user seekTag

namespace Shortened

variable {user shortest : Slice}

theorem before (shortened : Shortened key user shortest) : InternalBefore key shortest := by
  rw [shortened.tagged]
  exact before_of_user_lt shortened.above seekTag

theorem length_le (shortened : Shortened key user shortest) : shortest.length ≤ key.length := by
  have shorter := shortened.shorter
  rw [shortened.tagged, length_internalKeyOf]
  omega

theorem seekTagged (shortened : Shortened key user shortest) : ShorterWithSeekTag key shortest := by
  refine ⟨user, shortened.shorter, ?_⟩
  rw [@appendInternalKey_eq ⟨user, kMaxSequenceNumber, kValueTypeForSeek⟩ (BitVec.le_refl _) [],
    shortened.tagged]
  rfl

end Shortened

/-- The separator of two internal keys, with its assertions. -/
theorem findShortestSeparator_spec (startLong : 8 ≤ start.length)
    (limitLong : 8 ≤ limit.length) :
    ∃ shortest, findShortestSeparator bytewiseComparator start limit = some shortest ∧
      (shortest = start ∨ ∃ user, Shortened start user shortest ∧
        user < limit.take (limit.length - 8)) := by
  have startUser : extractUserKey start = some (start.take (start.length - 8)) := if_pos startLong
  have limitUser : extractUserKey limit = some (limit.take (limit.length - 8)) := if_pos limitLong
  have separates : Separates (start.take (start.length - 8)) (limit.take (limit.length - 8))
      (bytewiseComparator.findShortestSeparator (start.take (start.length - 8))
        (limit.take (limit.length - 8))) := (findShortestSeparator_separates _ _).1
  have between := separates.between
  have cut := List.length_take_of_le (Nat.sub_le start.length 8)
  simp only [findShortestSeparator, startUser, limitUser, Option.bind_eq_bind, Option.bind_some,
    packSeekTag]
  generalize bytewiseComparator.findShortestSeparator (start.take (start.length - 8))
    (limit.take (limit.length - 8)) = user at *
  split
  · rename_i shortens
    obtain ⟨above, below⟩ : start.take (start.length - 8) < user ∧
        user < limit.take (limit.length - 8) := by
      rcases between with rfl | ⟨above, below, -⟩
      · exact absurd shortens.1 (Nat.lt_irrefl _)
      · exact ⟨above, below⟩
    have shortened : Shortened start user (internalKeyOf user seekTag) :=
      ⟨above, cut ▸ shortens.1, rfl⟩
    obtain ⟨first, comparedFirst, firstNegative⟩ :=
      compare_neg startUser (extractUserKey_internalKeyOf user seekTag) above
    obtain ⟨second, comparedSecond, secondNegative⟩ :=
      compare_neg (extractUserKey_internalKeyOf user seekTag) limitUser below
    refine ⟨internalKeyOf user seekTag, ?_, .inr ⟨user, shortened, below⟩⟩
    rw [show putFixed64 user seekTag = internalKeyOf user seekTag from rfl, comparedFirst,
      comparedSecond]
    exact if_pos ⟨firstNegative, secondNegative⟩
  · exact ⟨start, rfl, .inl rfl⟩

/-- The successor of an internal key, with its assertion. -/
theorem findShortSuccessor_spec (keyLong : 8 ≤ key.length) :
    ∃ shortest, findShortSuccessor bytewiseComparator key = some shortest ∧
      (shortest = key ∨ ∃ user, Shortened key user shortest) := by
  have keyUser : extractUserKey key = some (key.take (key.length - 8)) := if_pos keyLong
  have least : key.take (key.length - 8) =
        bytewiseComparator.findShortSuccessor (key.take (key.length - 8)) ∨
      key.take (key.length - 8) <
        bytewiseComparator.findShortSuccessor (key.take (key.length - 8)) :=
    (findShortSuccessor_least (key.take (key.length - 8))).1
  have cut := List.length_take_of_le (Nat.sub_le key.length 8)
  simp only [findShortSuccessor, keyUser, Option.bind_eq_bind, Option.bind_some, packSeekTag]
  generalize bytewiseComparator.findShortSuccessor (key.take (key.length - 8)) = user at *
  split
  · rename_i shortens
    have above : key.take (key.length - 8) < user := by
      rcases least with rfl | above
      · exact absurd shortens.1 (Nat.lt_irrefl _)
      · exact above
    obtain ⟨result, compared, negative⟩ :=
      compare_neg keyUser (extractUserKey_internalKeyOf user seekTag) above
    refine ⟨internalKeyOf user seekTag, ?_, .inr ⟨user, above, cut ▸ shortens.1, rfl⟩⟩
    rw [show putFixed64 user seekTag = internalKeyOf user seekTag from rfl, compared]
    exact if_pos negative
  · exact ⟨key, rfl, .inl rfl⟩

/-- Separators and successors of internal keys, with the bytewise comparator for the user
keys: no assertion fails, a separator stays between the keys and a successor does not go
below the key, neither is longer, and one that differs has the tag of a search. -/
theorem internal_shortens :
    (∀ start limit : Slice, 8 ≤ start.length → 8 ≤ limit.length →
      ∃ shortest, findShortestSeparator bytewiseComparator start limit = some shortest ∧
        (BytewiseComparatorImpl.findShortestSeparatorAsserted (start.take (start.length - 8))
          (limit.take (limit.length - 8))).isSome ∧
        (InternalBefore start limit →
          (start = shortest ∨ InternalBefore start shortest) ∧ InternalBefore shortest limit ∧
            shortest.length ≤ start.length) ∧
        (¬ InternalBefore start limit → shortest = start) ∧
        (shortest ≠ start → ShorterWithSeekTag start shortest)) ∧
    ∀ key : Slice, 8 ≤ key.length →
      ∃ shortest, findShortSuccessor bytewiseComparator key = some shortest ∧
        (key = shortest ∨ InternalBefore key shortest) ∧ shortest.length ≤ key.length ∧
        (shortest ≠ key → ShorterWithSeekTag key shortest) := by
  constructor
  · intro start limit startLong limitLong
    obtain ⟨shortest, ran, result⟩ := findShortestSeparator_spec startLong limitLong
    refine ⟨shortest, ran, ?_, ?_⟩
    · rw [(findShortestSeparator_separates _ _).2]
      rfl
    rcases result with rfl | ⟨user, shortened, below⟩
    · exact ⟨fun before => ⟨.inl rfl, before, Nat.le_refl _⟩, fun _ => rfl,
        fun differs => absurd rfl differs⟩
    · refine ⟨fun _ => ⟨.inr shortened.before, ?_, shortened.length_le⟩, fun beyond => ?_,
        fun _ => shortened.seekTagged⟩
      · rw [shortened.tagged]
        exact before_of_lt_user below seekTag
      · exact absurd (.inl (List.lt_trans shortened.above below)) beyond
  · intro key keyLong
    obtain ⟨shortest, ran, result⟩ := findShortSuccessor_spec keyLong
    refine ⟨shortest, ran, ?_⟩
    rcases result with rfl | ⟨user, shortened⟩
    · exact ⟨.inl rfl, Nat.le_refl _, fun differs => absurd rfl differs⟩
    · exact ⟨.inr shortened.before, shortened.length_le, fun _ => shortened.seekTagged⟩

theorem internal_shortens_between :
    ∃ shortest, findShortestSeparator bytewiseComparator (internalKeyOf [97, 98] 0x501)
        (internalKeyOf [99] 0x201) = some shortest ∧
      InternalBefore shortest (internalKeyOf [99] 0x201) := by
  obtain ⟨shortest, ran, -, between, -⟩ :=
    internal_shortens.1 (internalKeyOf [97, 98] 0x501) (internalKeyOf [99] 0x201) (by decide)
      (by decide)
  exact ⟨shortest, ran, (between (.inl (by decide))).2.1⟩

end InternalKeyComparator

end MiniLevelDb
