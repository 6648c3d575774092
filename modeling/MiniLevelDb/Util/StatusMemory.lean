import MiniLevelDb.Foundation.Owners
import MiniLevelDb.Util.Coding

/-!
# The memory of statuses

A `Status` owns an array, or none when it is OK:

    state_[0..3] == length of message
    state_[4]    == code
    state_[5..]  == message

Objects are constructed, copied, moved, assigned and destroyed by name. A bad read or
write, a failed assertion or an array that is deleted twice leaves an operation without a
result.
-/

namespace MiniLevelDb

namespace StatusMemory

open Foundation

abbrev Address := Nat

/-- `Status::Code`. -/
inductive Code where
  | ok
  | notFound
  | corruption
  | notSupported
  | invalidArgument
  | ioError
  deriving DecidableEq, Repr

/-- The code as it is stored. -/
def Code.byte : Code → Byte
  | .ok => 0
  | .notFound => 1
  | .corruption => 2
  | .notSupported => 3
  | .invalidArgument => 4
  | .ioError => 5

/-- The arrays that are allocated, the next address `new` returns, and what the memory
holds before it is written. -/
structure Arrays where
  contents : Address → Option Slice
  fresh : Address
  garbage : Address → Nat → Byte

namespace Arrays

/-- `new char[size]`. -/
def newArray (arrays : Arrays) (size : Nat) : Address × Arrays :=
  (arrays.fresh, { arrays with
    contents := Function.update arrays.contents arrays.fresh
      (some ((List.range size).map (arrays.garbage arrays.fresh)))
    fresh := arrays.fresh + 1 })

/-- `delete[]`. -/
def deleteArray (arrays : Arrays) : Option Address → Option Arrays
  | none => some arrays
  | some address => do
      let _ ← arrays.contents address
      some { arrays with contents := Function.update arrays.contents address none }

/-- `::memcpy(address + offset, data.data(), data.size())`. -/
def store (arrays : Arrays) (address : Address) (offset : Nat) (data : Slice) : Option Arrays := do
  let array ← arrays.contents address
  if offset + data.length ≤ array.length then
    some { arrays with
      contents := Function.update arrays.contents address
        (some (array.take offset ++ data ++ array.drop (offset + data.length))) }
  else none

/-- `count` bytes at `address + offset`. -/
def load (arrays : Arrays) (address : Address) (offset count : Nat) : Option Slice := do
  let array ← arrays.contents address
  if offset + count ≤ array.length then some ((array.drop offset).take count) else none

end Arrays

/-- The value of a `uint32_t`. -/
def uint32 (value : Nat) : Nat := value % 2 ^ 32

/-- `Status(code, msg, msg2)`. -/
def construct (arrays : Arrays) (code : Code) (msg msg2 : Slice) : Option (Address × Arrays) := do
  if code = .ok then none
  else
    let len1 := uint32 msg.length
    let len2 := uint32 msg2.length
    let size := uint32 (len1 + if len2 ≠ 0 then 2 + len2 else 0)
    let (result, arrays) := arrays.newArray (uint32 (size + 5))
    let arrays ← arrays.store result 0 (encodeFixed32 (BitVec.ofNat 32 size))
    let arrays ← arrays.store result 4 [code.byte]
    let arrays ← arrays.store result 5 (msg.take len1)
    if len2 ≠ 0 then
      let arrays ← arrays.store result (uint32 (5 + len1)) [0x3a]
      let arrays ← arrays.store result (uint32 (6 + len1)) [0x20]
      let arrays ← arrays.store result (7 + len1) (msg2.take len2)
      some (result, arrays)
    else some (result, arrays)

/-- `CopyState`. -/
def copyState (arrays : Arrays) (state : Address) : Option (Address × Arrays) := do
  let size := (decodeFixed32 (← arrays.load state 0 4)).toNat
  let (result, arrays) := arrays.newArray (uint32 (size + 5))
  let arrays ← arrays.store result 0 (← arrays.load state 0 (uint32 (size + 5)))
  some (result, arrays)

/-- A copy of `state_`, or null. -/
def copyOf (arrays : Arrays) : Option Address → Option (Option Address × Arrays)
  | none => some (none, arrays)
  | some state => do
      let (result, arrays) ← copyState arrays state
      some (some result, arrays)

/-- `code()`, as a number. -/
def code (arrays : Arrays) : Option Address → Option Byte
  | none => some Code.ok.byte
  | some state => (arrays.load state 4 1).map fun bytes => bytes.getD 0 0

/-- The text of a string literal. -/
def literal (text : String) : Slice := text.toList.map fun char => BitVec.ofNat 8 char.toNat

/-- The text that `ToString` puts in front of the message. -/
def typeText (code : Byte) : Slice :=
  if code = Code.ok.byte then literal "OK"
  else if code = Code.notFound.byte then literal "NotFound: "
  else if code = Code.corruption.byte then literal "Corruption: "
  else if code = Code.notSupported.byte then literal "Not implemented: "
  else if code = Code.invalidArgument.byte then literal "Invalid argument: "
  else if code = Code.ioError.byte then literal "IO error: "
  else literal "Unknown code(" ++ literal (toString code.toInt) ++ literal "): "

/-- `ToString`. -/
def toString (arrays : Arrays) : Option Address → Option Slice
  | none => some (literal "OK")
  | some state => do
      let type := typeText (← code arrays (some state))
      let length := (decodeFixed32 (← arrays.load state 0 4)).toNat
      some (type ++ (← arrays.load state 5 length))

variable {Name : Type} [DecidableEq Name]

/-- The arrays, and `state_` of the objects that are alive. -/
structure Objects (Name : Type) where
  arrays : Arrays
  state : Name → Option (Option Address)

/-- What is done to objects: constructors, assignments and the destructor. -/
inductive Operation (Name : Type) where
  | default (name : Name)
  | construct (name : Name) (code : Code) (msg msg2 : Slice)
  | copy (name rhs : Name)
  | move (name rhs : Name)
  | assign (name rhs : Name)
  | moveAssign (name rhs : Name)
  | destroy (name : Name)

namespace Objects

/-- No objects and no arrays. -/
def empty (garbage : Address → Nat → Byte) : Objects Name :=
  ⟨⟨fun _ => none, 0, garbage⟩, fun _ => none⟩

/-- `name.state_ = state`. -/
def set (objects : Objects Name) (name : Name) (state : Option Address) : Objects Name :=
  { objects with state := Function.update objects.state name (some state) }

/-- An object is constructed that is not alive yet. -/
def start (objects : Objects Name) (name : Name) : Option (Objects Name) :=
  if (objects.state name).isSome then none else some objects

def perform (objects : Objects Name) : Operation Name → Option (Objects Name)
  | .default name => do
      let objects ← objects.start name
      some (objects.set name none)
  | .construct name code msg msg2 => do
      let objects ← objects.start name
      let (result, arrays) ← StatusMemory.construct objects.arrays code msg msg2
      some ({ objects with arrays := arrays }.set name (some result))
  | .copy name rhs => do
      let objects ← objects.start name
      let (result, arrays) ← copyOf objects.arrays (← objects.state rhs)
      some ({ objects with arrays := arrays }.set name result)
  | .move name rhs => do
      let objects ← objects.start name
      let state ← objects.state rhs
      some ((objects.set rhs none).set name state)
  | .assign name rhs => do
      let own ← objects.state name
      let state ← objects.state rhs
      if own ≠ state then
        let arrays ← objects.arrays.deleteArray own
        let (result, arrays) ← copyOf arrays state
        some ({ objects with arrays := arrays }.set name result)
      else some objects
  | .moveAssign name rhs => do
      let own ← objects.state name
      let state ← objects.state rhs
      some ((objects.set name state).set rhs own)
  | .destroy name => do
      let arrays ← objects.arrays.deleteArray (← objects.state name)
      some ⟨arrays, Function.update objects.state name none⟩

def performAll (objects : Objects Name) : List (Operation Name) → Option (Objects Name)
  | [] => some objects
  | operation :: later => do
      let objects ← objects.perform operation
      objects.performAll later

end Objects

/-- What a status says: OK, or a code and a message. -/
abbrev Value := Option (Code × Slice)

/-- The message of two parts. -/
def message (msg msg2 : Slice) : Slice :=
  msg ++ if msg2 = [] then [] else [0x3a, 0x20] ++ msg2

namespace Value

def code : Value → Byte
  | none => Code.ok.byte
  | some (code, _) => code.byte

def text : Value → Slice
  | none => literal "OK"
  | some (code, message) => typeText code.byte ++ message

/-- Statuses that are plain values. There is none for a message whose parts come to
`2 ^ 32 - 7` bytes or more: the `uint32_t` sizes of the constructor wrap around there, and it
writes outside of its array. -/
def perform (values : Name → Option Value) : Operation Name → Option (Name → Option Value)
  | .default name =>
      if (values name).isSome then none else some (Function.update values name (some none))
  | .construct name code msg msg2 =>
      if (values name).isSome ∨ code = .ok ∨ 2 ^ 32 ≤ msg.length + msg2.length + 7 then none
      else some (Function.update values name (some (some (code, message msg msg2))))
  | .copy name rhs => do
      if (values name).isSome then none
      else
        let value ← values rhs
        some (Function.update values name (some value))
  | .move name rhs => do
      if (values name).isSome then none
      else
        let value ← values rhs
        some (Function.update (Function.update values rhs (some none)) name (some value))
  | .assign name rhs => do
      let _ ← values name
      let value ← values rhs
      some (Function.update values name (some value))
  | .moveAssign name rhs => do
      let own ← values name
      let value ← values rhs
      some (Function.update (Function.update values name (some value)) rhs (some own))
  | .destroy name => do
      let _ ← values name
      some (Function.update values name none)

def performAll (values : Name → Option Value) :
    List (Operation Name) → Option (Name → Option Value)
  | [] => some values
  | operation :: later => do
      let values ← perform values operation
      performAll values later

end Value

/-- The array of a status that is not OK. -/
def encode (code : Code) (message : Slice) : Slice :=
  encodeFixed32 (BitVec.ofNat 32 message.length) ++ [code.byte] ++ message

section Arrays

variable {arrays : Arrays} {code : Code} {msg msg2 text : Slice} {address : Address}

/-- The array `new` returns, with its first bytes written. -/
def filling (arrays : Arrays) (done rest : Slice) : Arrays :=
  { arrays with
    contents := Function.update arrays.contents arrays.fresh (some (done ++ rest))
    fresh := arrays.fresh + 1 }

theorem newArray_eq (arrays : Arrays) (size : Nat) :
    ∃ rest : Slice, rest.length = size ∧
      arrays.newArray size = (arrays.fresh, filling arrays [] rest) :=
  ⟨(List.range size).map (arrays.garbage arrays.fresh), by simp, rfl⟩

/-- Bytes are written after those that are. -/
theorem store_filling {done rest data : Slice} {offset left : Nat} (here : offset = done.length)
    (room : rest.length = data.length + left) :
    ∃ later : Slice, later.length = left ∧
      (filling arrays done rest).store arrays.fresh offset data =
        some (filling arrays (done ++ data) later) := by
  subst here
  have inside : done.length + data.length ≤ (done ++ rest).length := by
    rw [List.length_append, room]
    omega
  refine ⟨rest.drop data.length, by rw [List.length_drop, room, Nat.add_sub_cancel_left], ?_⟩
  simp only [Arrays.store, filling, Function.update_self, Option.bind_eq_bind, Option.bind_some,
    if_pos inside, Function.update_idem, List.take_left, List.drop_length_add_append]

theorem uint32_of_lt {value : Nat} (small : value < 2 ^ 32) : uint32 value = value :=
  Nat.mod_eq_of_lt small

theorem length_message (msg msg2 : Slice) :
    (message msg msg2).length = msg.length + if msg2.length ≠ 0 then 2 + msg2.length else 0 := by
  rw [message, List.length_append]
  cases msg2 with
  | nil => rfl
  | cons first rest =>
      have some_ : (first :: rest).length ≠ 0 := Nat.succ_ne_zero _
      rw [if_neg (List.cons_ne_nil _ _), if_pos some_, List.length_append]
      rfl

theorem construct_eq (named : code ≠ .ok) (fits : msg.length + msg2.length + 7 < 2 ^ 32) :
    construct arrays code msg msg2 =
      some (arrays.fresh, filling arrays (encode code (message msg msg2)) []) := by
  have size := length_message msg msg2
  have len1 : uint32 msg.length = msg.length := uint32_of_lt (by omega)
  have len2 : uint32 msg2.length = msg2.length := uint32_of_lt (by omega)
  have bound : (message msg msg2).length + 5 < 2 ^ 32 := by
    rw [size]
    split <;> omega
  have small : uint32 (message msg msg2).length = (message msg msg2).length :=
    uint32_of_lt (by omega)
  have four : (encodeFixed32 (BitVec.ofNat 32 (message msg msg2).length)).length = 4 :=
    length_encodeFixed32 _
  obtain ⟨rest, length, made⟩ := newArray_eq arrays ((message msg msg2).length + 5)
  unfold construct
  rw [if_neg named]
  dsimp only
  rw [len1, len2, ← size, small, uint32_of_lt bound, made, List.take_length, List.take_length]
  dsimp only [Option.bind_eq_bind]
  obtain ⟨rest, length, stored⟩ := @store_filling arrays [] rest
    (encodeFixed32 (BitVec.ofNat 32 (message msg msg2).length)) 0
    ((message msg msg2).length + 1) rfl (by rw [length, four]; omega)
  rw [stored, Option.bind_some, List.nil_append]
  obtain ⟨rest, length, stored⟩ := @store_filling arrays _ rest [code.byte] 4
    (message msg msg2).length four.symm (by rw [length, List.length_singleton]; omega)
  rw [stored, Option.bind_some]
  have five : (encodeFixed32 (BitVec.ofNat 32 (message msg msg2).length) ++
      [code.byte]).length = 5 := by
    rw [List.length_append, four, List.length_singleton]
  rw [encode]
  generalize encodeFixed32 (BitVec.ofNat 32 (message msg msg2).length) ++ [code.byte] = header
    at five ⊢
  obtain ⟨rest, length, stored⟩ := @store_filling arrays header rest msg 5
    (if msg2.length ≠ 0 then 2 + msg2.length else 0) five.symm (by rw [length, size])
  rw [stored, Option.bind_some]
  by_cases second : msg2.length = 0
  · rw [if_neg (not_not_intro second)] at length ⊢
    rw [List.length_eq_zero_iff.mp length, List.length_eq_zero_iff.mp second, message, if_pos rfl,
      List.append_nil]
  · rw [if_pos second] at length ⊢
    obtain ⟨rest, length, stored⟩ := @store_filling arrays (header ++ msg) rest [0x3a]
      (uint32 (5 + msg.length)) (1 + msg2.length)
      (by rw [List.length_append, five, uint32_of_lt (by omega)])
      (by rw [length, List.length_singleton]; omega)
    rw [stored, Option.bind_some]
    obtain ⟨rest, length, stored⟩ := @store_filling arrays (header ++ msg ++ [0x3a]) rest [0x20]
      (uint32 (6 + msg.length)) msg2.length
      (by
        rw [List.length_append, List.length_append, five, uint32_of_lt (by omega),
          List.length_singleton]
        omega)
      (by rw [length, List.length_singleton])
    rw [stored, Option.bind_some]
    obtain ⟨rest, length, stored⟩ := @store_filling arrays (header ++ msg ++ [0x3a] ++ [0x20]) rest
      msg2 (7 + msg.length) 0
      (by
        rw [List.length_append, List.length_append, List.length_append, five,
          List.length_singleton, List.length_singleton]
        omega)
      length
    have whole : message msg msg2 = msg ++ [0x3a] ++ [0x20] ++ msg2 := by
      rw [message, if_neg (fun none_ => second (by rw [none_]; rfl))]
      simp only [List.append_assoc, List.cons_append, List.nil_append]
    rw [stored, Option.bind_some, List.length_eq_zero_iff.mp length, whole]
    simp only [List.append_assoc]

/-- The size is read back from an array. -/
theorem load_size (stored : arrays.contents address = some (encode code text))
    (fits : text.length + 5 < 2 ^ 32) :
    arrays.load address 0 4 = some (encodeFixed32 (BitVec.ofNat 32 text.length)) ∧
      (decodeFixed32 (encodeFixed32 (BitVec.ofNat 32 text.length))).toNat = text.length := by
  constructor
  · have inside : 0 + 4 ≤ (encode code text).length := by
      simp only [encode, List.length_append, length_encodeFixed32]
      omega
    rw [Arrays.load, stored, Option.bind_eq_bind, Option.bind_some, if_pos inside, encode,
      List.append_assoc, List.drop_zero, List.take_left' (length_encodeFixed32 _)]
  · have same := decodeFixed32_encodeFixed32 (BitVec.ofNat 32 text.length) []
    rw [List.append_nil] at same
    rw [same, BitVec.toNat_ofNat, Nat.mod_eq_of_lt (by omega)]

theorem length_encode (code : Code) (text : Slice) :
    (encode code text).length = text.length + 5 := by
  simp only [encode, List.length_append, length_encodeFixed32, List.length_singleton]
  omega

/-- A copy has an array of its own. -/
theorem copyState_eq (stored : arrays.contents address = some (encode code text))
    (fits : text.length + 5 < 2 ^ 32) (old : address ≠ arrays.fresh) :
    copyState arrays address = some (arrays.fresh, filling arrays (encode code text) []) := by
  obtain ⟨size, count⟩ := load_size stored fits
  obtain ⟨rest, length, made⟩ := newArray_eq arrays (text.length + 5)
  unfold copyState
  simp only [Option.bind_eq_bind, size, Option.bind_some]
  rw [count, uint32_of_lt fits, made]
  dsimp only
  have still : (filling arrays [] rest).load address 0 (text.length + 5) =
      some (encode code text) := by
    have inside : 0 + (text.length + 5) ≤ (encode code text).length := by
      rw [length_encode, Nat.zero_add]
    rw [Arrays.load, filling]
    dsimp only
    rw [Function.update_of_ne old, stored, Option.bind_eq_bind, Option.bind_some, if_pos inside,
      List.drop_zero, ← length_encode code text, List.take_length]
  obtain ⟨later, none_, written⟩ := @store_filling arrays [] rest (encode code text) 0 0 rfl
    (by rw [length, length_encode])
  rw [still, Option.bind_some, written, Option.bind_some, List.length_eq_zero_iff.mp none_]
  rfl

theorem code_eq (stored : arrays.contents address = some (encode code text)) :
    StatusMemory.code arrays (some address) = some code.byte := by
  have inside : 4 + 1 ≤ (encode code text).length := by
    rw [length_encode]
    omega
  rw [StatusMemory.code, Arrays.load, stored, Option.bind_eq_bind, Option.bind_some,
    if_pos inside, encode, List.append_assoc, List.drop_left' (length_encodeFixed32 _)]
  rfl

theorem toString_eq (stored : arrays.contents address = some (encode code text))
    (fits : text.length + 5 < 2 ^ 32) :
    StatusMemory.toString arrays (some address) = some (typeText code.byte ++ text) := by
  obtain ⟨size, count⟩ := load_size stored fits
  have message : arrays.load address 5 text.length = some text := by
    have inside : 5 + text.length ≤ (encode code text).length := by
      rw [length_encode]
      omega
    have five : (encodeFixed32 (BitVec.ofNat 32 text.length) ++ [code.byte]).length = 5 := rfl
    rw [Arrays.load, stored, Option.bind_eq_bind, Option.bind_some, if_pos inside, encode,
      List.drop_left' five, List.take_length]
  simp only [StatusMemory.toString, code_eq stored, Option.bind_eq_bind, Option.bind_some, size,
    count, message]

end Arrays

/-- `state_` of an object and its array, for a value; both are absent for an object that is
not alive. -/
inductive Agrees (arrays : Arrays) : Option (Option Address) → Option Value → Prop where
  | absent : Agrees arrays none none
  | ok : Agrees arrays (some none) (some none)
  | error {address : Address} {code : Code} {text : Slice}
      (stored : arrays.contents address = some (encode code text))
      (fits : text.length + 5 < 2 ^ 32) :
      Agrees arrays (some (some address)) (some (some (code, text)))

/-- The arrays belong to the objects, one each, and hold their values. -/
structure Refines (objects : Objects Name) (values : Name → Option Value) : Prop where
  agrees : ∀ name, Agrees objects.arrays (objects.state name) (values name)
  owned : Owned objects.arrays.contents fun name => (objects.state name).join
  bounded : ∀ address, objects.arrays.fresh ≤ address → objects.arrays.contents address = none

variable {objects : Objects Name} {values : Name → Option Value} {name rhs : Name}

/-- An array that is kept keeps its value. -/
theorem Agrees.congr {arrays after : Arrays} {state : Option (Option Address)}
    {value : Option Value} (agrees : Agrees arrays state value)
    (kept : ∀ address, state = some (some address) →
      after.contents address = arrays.contents address) :
    Agrees after state value := by
  cases agrees with
  | absent => exact .absent
  | ok => exact .ok
  | error stored fits => exact .error ((kept _ rfl).trans stored) fits

theorem Agrees.isSome {arrays : Arrays} {state : Option (Option Address)} {value : Option Value}
    (agrees : Agrees arrays state value) : state.isSome = value.isSome := by
  cases agrees <;> rfl

theorem join_update (state : Name → Option (Option Address)) (name : Name)
    (later : Option (Option Address)) :
    (fun other => (Function.update state name later other).join) =
      Function.update (fun other => (state other).join) name later.join := by
  funext other
  by_cases same : other = name
  · subst same
    rw [Function.update_self, Function.update_self]
  · rw [Function.update_of_ne same, Function.update_of_ne same]

namespace Refines

/-- An object is given a new array, or none, in place of none. -/
theorem acquire (refines : Refines objects values) (name : Name)
    (null : (objects.state name).join = none) {state : Option Address} {arrays : Arrays}
    {value : Value}
    (copied : state = none ∧ arrays = objects.arrays ∧ value = none ∨
      ∃ code text, text.length + 5 < 2 ^ 32 ∧ state = some objects.arrays.fresh ∧
        arrays = filling objects.arrays (encode code text) [] ∧ value = some (code, text)) :
    Refines ({ objects with arrays := arrays }.set name state)
      (Function.update values name (some value)) := by
  obtain ⟨rfl, rfl, rfl⟩ | ⟨code, text, fits, rfl, rfl, rfl⟩ := copied
  · refine ⟨fun other => ?_, ?_, refines.bounded⟩
    · dsimp only [Objects.set]
      by_cases same : other = name
      · subst same
        rw [Function.update_self, Function.update_self]
        exact .ok
      · rw [Function.update_of_ne same, Function.update_of_ne same]
        exact refines.agrees other
    · dsimp only [Objects.set]
      rw [join_update, show (some none : Option (Option Address)).join =
        (objects.state name).join from null.symm, Function.update_eq_self]
      exact refines.owned
  · have free := refines.bounded objects.arrays.fresh (Nat.le_refl _)
    refine ⟨fun other => ?_, ?_, fun address late => ?_⟩
    · dsimp only [Objects.set]
      by_cases same : other = name
      · subst same
        rw [Function.update_self, Function.update_self]
        refine .error ?_ fits
        rw [filling, List.append_nil]
        exact Function.update_self _ _ _
      · rw [Function.update_of_ne same, Function.update_of_ne same]
        refine (refines.agrees other).congr fun address points => ?_
        refine Function.update_of_ne ?_ _ _
        rintro rfl
        exact refines.owned.live (by rw [points]; rfl) free
    · dsimp only [Objects.set, filling]
      rw [join_update, List.append_nil]
      exact refines.owned.allocate free null _
    · dsimp only [Objects.set, filling] at late ⊢
      rw [Function.update_of_ne (Nat.ne_of_gt late)]
      exact refines.bounded address (Nat.le_of_succ_le late)

/-- The array of an object, if it has one, is deleted, and the object is OK or gone. -/
theorem delete (refines : Refines objects values) {own : Option Address}
    (alive : objects.state name = some own) {later : Option (Option Address)}
    {value : Option Value} (null : later.join = none)
    (agrees : ∀ arrays, Agrees arrays later value) :
    ∃ arrays, objects.arrays.deleteArray own = some arrays ∧
      Refines ⟨arrays, Function.update objects.state name later⟩
        (Function.update values name value) := by
  cases own with
  | none =>
      refine ⟨objects.arrays, rfl, fun other => ?_, ?_, refines.bounded⟩
      · dsimp only
        by_cases same : other = name
        · subst same
          rw [Function.update_self, Function.update_self]
          exact agrees _
        · rw [Function.update_of_ne same, Function.update_of_ne same]
          exact refines.agrees other
      · rw [join_update, null, show (none : Option Address) = (objects.state name).join by
          rw [alive]; rfl, Function.update_eq_self]
        exact refines.owned
  | some address =>
      have points : (objects.state name).join = some address := by
        rw [alive]
        rfl
      obtain ⟨array, found⟩ := Option.ne_none_iff_exists'.mp (refines.owned.live points)
      refine ⟨{ objects.arrays with
        contents := Function.update objects.arrays.contents address none }, ?_, fun other => ?_, ?_,
        fun place late => ?_⟩
      · rw [Arrays.deleteArray, found]
        rfl
      · dsimp only
        by_cases same : other = name
        · subst same
          rw [Function.update_self, Function.update_self]
          exact agrees _
        · rw [Function.update_of_ne same, Function.update_of_ne same]
          refine (refines.agrees other).congr fun place also => ?_
          refine Function.update_of_ne ?_ _ _
          rintro rfl
          exact same (refines.owned.unique (by rw [also]; rfl) points)
      · rw [join_update, null]
        exact refines.owned.free points
      · by_cases same : place = address
        · subst same
          exact Function.update_self _ _ _
        · exact (Function.update_of_ne same _ _).trans (refines.bounded place late)

omit [DecidableEq Name] in
/-- A copy of the value of an object. -/
theorem copyOf_eq (refines : Refines objects values) {state : Option Address} {value : Value}
    (alive : objects.state rhs = some state) (known : values rhs = some value) :
    ∃ result arrays, copyOf objects.arrays state = some (result, arrays) ∧
      (result = none ∧ arrays = objects.arrays ∧ value = none ∨
        ∃ code text, text.length + 5 < 2 ^ 32 ∧ result = some objects.arrays.fresh ∧
          arrays = filling objects.arrays (encode code text) [] ∧ value = some (code, text)) := by
  have agrees := refines.agrees rhs
  rw [alive, known] at agrees
  cases agrees with
  | ok => exact ⟨none, objects.arrays, rfl, .inl ⟨rfl, rfl, rfl⟩⟩
  | @error address code text stored fits =>
      have old : address ≠ objects.arrays.fresh := by
        rintro rfl
        rw [refines.bounded _ (Nat.le_refl _)] at stored
        cases stored
      refine ⟨_, _, ?_, .inr ⟨code, text, fits, rfl, rfl, rfl⟩⟩
      rw [copyOf, copyState_eq stored fits old]
      rfl

/-- Exchanging two values of a function exchanges their arguments. -/
theorem update_update_swap {Thing : Type} (thing : Name → Thing) (name rhs : Name) :
    Function.update (Function.update thing name (thing rhs)) rhs (thing name) =
      fun other => thing (Equiv.swap name rhs other) := by
  funext other
  by_cases right : other = rhs
  · subst right
    rw [Function.update_self, Equiv.swap_apply_right]
  · rw [Function.update_of_ne right]
    by_cases left : other = name
    · subst left
      rw [Function.update_self, Equiv.swap_apply_left]
    · rw [Function.update_of_ne left, Equiv.swap_apply_of_ne_of_ne left right]

/-- Two objects exchange what they have. -/
theorem swap (refines : Refines objects values) (name rhs : Name) :
    Refines ⟨objects.arrays, fun other => objects.state (Equiv.swap name rhs other)⟩
      (fun other => values (Equiv.swap name rhs other)) where
  agrees := fun _ => refines.agrees _
  owned := refines.owned.permute (Equiv.swap name rhs)
  bounded := refines.bounded

omit [DecidableEq Name] in
theorem start (refines : Refines objects values) (absent : (values name).isSome = false) :
    objects.start name = some objects ∧ objects.state name = none := by
  have same := (refines.agrees name).isSome
  rw [absent] at same
  refine ⟨?_, Option.isSome_eq_false_iff.mp same |> Option.isNone_iff_eq_none.mp⟩
  rw [Objects.start, same]
  rfl

omit [DecidableEq Name] in
/-- Where there is a value there is an object. -/
theorem alive (refines : Refines objects values) {value : Value}
    (known : values name = some value) :
    ∃ state, objects.state name = some state := by
  apply Option.isSome_iff_exists.mp
  rw [(refines.agrees name).isSome, known]
  rfl

/-! Every operation that is one on values is one on objects, and keeps them in agreement. -/

variable {after : Name → Option Value}

/-- An object is constructed that is OK. -/
theorem perform_default (refines : Refines objects values)
    (runs : Value.perform values (.default name) = some after) :
    ∃ later, objects.perform (.default name) = some later ∧ Refines later after := by
  dsimp only [Value.perform] at runs
  split at runs
  · cases runs
  · rename_i absent
    cases runs
    obtain ⟨started, dead⟩ := refines.start (Bool.eq_false_iff.mpr absent)
    refine ⟨_, ?_, refines.acquire name (by rw [dead]; rfl) (.inl ⟨rfl, rfl, rfl⟩)⟩
    rw [Objects.perform, started]
    rfl

/-- An object is constructed with a message. -/
theorem perform_construct (refines : Refines objects values) {code : Code} {msg msg2 : Slice}
    (runs : Value.perform values (.construct name code msg msg2) = some after) :
    ∃ later, objects.perform (.construct name code msg msg2) = some later ∧
      Refines later after := by
  dsimp only [Value.perform] at runs
  split at runs
  · cases runs
  · rename_i legal
    cases runs
    obtain ⟨absent, named, fits⟩ := not_or.mp legal |>.imp_right not_or.mp
    obtain ⟨started, dead⟩ := refines.start (Bool.eq_false_iff.mpr absent)
    have short : (message msg msg2).length + 5 < 2 ^ 32 := by
      rw [length_message]
      split <;> omega
    refine ⟨_, ?_, refines.acquire name (by rw [dead]; rfl)
      (.inr ⟨code, message msg msg2, short, rfl, rfl, rfl⟩)⟩
    rw [Objects.perform, started, Option.bind_eq_bind, Option.bind_some,
      construct_eq named (Nat.lt_of_not_le fits)]
    rfl

/-- An object is constructed as a copy. -/
theorem perform_copy (refines : Refines objects values)
    (runs : Value.perform values (.copy name rhs) = some after) :
    ∃ later, objects.perform (.copy name rhs) = some later ∧ Refines later after := by
  dsimp only [Value.perform] at runs
  split at runs
  · cases runs
  · rename_i absent
    obtain ⟨value, known, made⟩ := Option.bind_eq_some_iff.mp runs
    cases made
    obtain ⟨started, dead⟩ := refines.start (Bool.eq_false_iff.mpr absent)
    obtain ⟨state, alive⟩ := refines.alive known
    obtain ⟨result, arrays, copied, which⟩ := refines.copyOf_eq alive known
    refine ⟨_, ?_, refines.acquire name (by rw [dead]; rfl) which⟩
    simp only [Objects.perform, started, alive, copied, Option.bind_eq_bind, Option.bind_some]

/-- An object is constructed from one that is OK afterwards. -/
theorem perform_move (refines : Refines objects values)
    (runs : Value.perform values (.move name rhs) = some after) :
    ∃ later, objects.perform (.move name rhs) = some later ∧ Refines later after := by
  dsimp only [Value.perform] at runs
  split at runs
  · cases runs
  · rename_i absent
    obtain ⟨value, known, made⟩ := Option.bind_eq_some_iff.mp runs
    cases made
    obtain ⟨started, dead⟩ := refines.start (Bool.eq_false_iff.mpr absent)
    obtain ⟨state, alive⟩ := refines.alive known
    have apart : name ≠ rhs := by
      rintro rfl
      rw [dead] at alive
      cases alive
    -- the objects exchange what they have, and then the one moved from is OK
    have exchanged := (refines.swap name rhs).acquire rhs
      (by dsimp only; rw [Equiv.swap_apply_right, dead]; rfl) (.inl ⟨rfl, rfl, rfl⟩)
    have states : Function.update (Function.update objects.state rhs (some none)) name
        (some state) = Function.update (fun other => objects.state (Equiv.swap name rhs other))
          rhs (some none) := by
      rw [← update_update_swap, Function.update_idem, Function.update_comm apart, alive]
    have moved : Function.update (Function.update values rhs (some none)) name (some value) =
        Function.update (fun other => values (Equiv.swap name rhs other)) rhs (some none) := by
      rw [← update_update_swap, Function.update_idem, Function.update_comm apart, known]
    refine ⟨_, ?_, moved ▸ exchanged⟩
    simp only [Objects.perform, started, alive, Option.bind_eq_bind, Option.bind_some,
      Objects.set, states]

/-- An object is assigned another, or itself. -/
theorem perform_assign (refines : Refines objects values)
    (runs : Value.perform values (.assign name rhs) = some after) :
    ∃ later, objects.perform (.assign name rhs) = some later ∧ Refines later after := by
  obtain ⟨was, knownOwn, runs⟩ := Option.bind_eq_some_iff.mp runs
  obtain ⟨value, known, made⟩ := Option.bind_eq_some_iff.mp runs
  cases made
  obtain ⟨own, aliveOwn⟩ := refines.alive knownOwn
  obtain ⟨state, alive⟩ := refines.alive known
  by_cases same : own = state
  · subst same
    have unchanged : was = value := by
      cases own with
      | none =>
          have left := refines.agrees name
          have right := refines.agrees rhs
          rw [aliveOwn, knownOwn] at left
          rw [alive, known] at right
          cases left
          cases right
          rfl
      | some address =>
          obtain rfl : name = rhs :=
            refines.owned.unique (by rw [aliveOwn]; rfl) (by rw [alive]; rfl)
          exact Option.some.inj (knownOwn.symm.trans known)
    subst unchanged
    refine ⟨objects, ?_, ?_⟩
    · simp only [Objects.perform, aliveOwn, alive, Option.bind_eq_bind, Option.bind_some,
        ne_eq, not_true_eq_false, if_false]
    · rw [← knownOwn, Function.update_eq_self]
      exact refines
  · have apart : rhs ≠ name := by
      rintro rfl
      exact same (Option.some.inj (aliveOwn.symm.trans alive))
    obtain ⟨arrays, deleted, freed⟩ := refines.delete aliveOwn rfl fun _ => .ok
    obtain ⟨result, after, copied, which⟩ := freed.copyOf_eq
      ((Function.update_of_ne apart _ _).trans alive)
      ((Function.update_of_ne apart _ _).trans known)
    have assigned := freed.acquire name (by dsimp only; rw [Function.update_self]; rfl) which
    dsimp only [Objects.set] at assigned
    rw [Function.update_idem, Function.update_idem] at assigned
    refine ⟨_, ?_, assigned⟩
    simp only [Objects.perform, aliveOwn, alive, Option.bind_eq_bind, Option.bind_some, ne_eq,
      same, not_false_eq_true, if_true, deleted, copied, Objects.set]

/-- An object is moved to another, or to itself. -/
theorem perform_moveAssign (refines : Refines objects values)
    (runs : Value.perform values (.moveAssign name rhs) = some after) :
    ∃ later, objects.perform (.moveAssign name rhs) = some later ∧ Refines later after := by
  obtain ⟨own, knownOwn, runs⟩ := Option.bind_eq_some_iff.mp runs
  obtain ⟨value, known, made⟩ := Option.bind_eq_some_iff.mp runs
  cases made
  obtain ⟨ownState, aliveOwn⟩ := refines.alive knownOwn
  obtain ⟨state, alive⟩ := refines.alive known
  have exchanged := refines.swap name rhs
  rw [← update_update_swap values, ← update_update_swap objects.state, aliveOwn, alive, known,
    knownOwn] at exchanged
  refine ⟨_, ?_, exchanged⟩
  simp only [Objects.perform, aliveOwn, alive, Option.bind_eq_bind, Option.bind_some,
    Objects.set]

/-- An object is destroyed. -/
theorem perform_destroy (refines : Refines objects values)
    (runs : Value.perform values (.destroy name) = some after) :
    ∃ later, objects.perform (.destroy name) = some later ∧ Refines later after := by
  obtain ⟨value, known, made⟩ := Option.bind_eq_some_iff.mp runs
  cases made
  obtain ⟨state, alive⟩ := refines.alive known
  obtain ⟨arrays, deleted, result⟩ := refines.delete alive rfl fun _ => .absent
  refine ⟨_, ?_, result⟩
  simp only [Objects.perform, alive, deleted, Option.bind_eq_bind, Option.bind_some]

/-- Whatever the operation. -/
theorem perform (refines : Refines objects values) {operation : Operation Name}
    (runs : Value.perform values operation = some after) :
    ∃ later, objects.perform operation = some later ∧ Refines later after := by
  cases operation with
  | default name => exact refines.perform_default runs
  | construct name code msg msg2 => exact refines.perform_construct runs
  | copy name rhs => exact refines.perform_copy runs
  | move name rhs => exact refines.perform_move runs
  | assign name rhs => exact refines.perform_assign runs
  | moveAssign name rhs => exact refines.perform_moveAssign runs
  | destroy name => exact refines.perform_destroy runs

theorem performAll (refines : Refines objects values) {operations : List (Operation Name)}
    {after : Name → Option Value} (runs : Value.performAll values operations = some after) :
    ∃ later, objects.performAll operations = some later ∧ Refines later after := by
  induction operations generalizing objects values with
  | nil =>
      cases runs
      exact ⟨objects, rfl, refines⟩
  | cons operation operations ih =>
      obtain ⟨middle, first, rest⟩ := Option.bind_eq_some_iff.mp runs
      obtain ⟨between, performed, agreed⟩ := refines.perform first
      obtain ⟨later, ran, result⟩ := ih agreed rest
      refine ⟨later, ?_, result⟩
      rw [Objects.performAll, performed]
      exact ran

end Refines

omit [DecidableEq Name] in
/-- No objects, no arrays. -/
theorem empty_refines (garbage : Address → Nat → Byte) :
    Refines (Objects.empty garbage : Objects Name) fun _ => none where
  agrees := fun _ => .absent
  owned := ⟨fun points => (by cases points), fun points => (by cases points),
    fun live => absurd rfl live⟩
  bounded := fun _ _ => rfl

/-- In every run of constructors, copies, moves, assignments and destructors of statuses, of
one to itself as well, the statuses are the values they would be: nothing is read or written
outside of an array or after it was deleted, `ok`, `code` and `ToString` tell the values, and
there is one array for each status that is not OK and no other. -/
theorem performAll_values {operations : List (Operation Name)} {values : Name → Option Value}
    (runs : Value.performAll (fun _ => none) operations = some values)
    (garbage : Address → Nat → Byte) :
    ∃ objects : Objects Name, (Objects.empty garbage).performAll operations = some objects ∧
      (∀ name, (objects.state name).isSome = (values name).isSome) ∧
      (∀ name value state, values name = some value → objects.state name = some state →
        state.isNone = value.isNone ∧ code objects.arrays state = some (Value.code value) ∧
        toString objects.arrays state = some (Value.text value)) ∧
      Owned objects.arrays.contents fun name => (objects.state name).join := by
  obtain ⟨objects, ran, refines⟩ := (empty_refines garbage).performAll runs
  refine ⟨objects, ran, fun name => (refines.agrees name).isSome, ?_, refines.owned⟩
  intro name value state known alive
  have agrees := refines.agrees name
  rw [known, alive] at agrees
  cases agrees with
  | ok => exact ⟨rfl, rfl, rfl⟩
  | error stored fits => exact ⟨rfl, code_eq stored, toString_eq stored fits⟩

/-- A status is copied, assigned to itself, moved from and exchanged, and its copy is
destroyed. -/
theorem performAll_values_exchange :
    ∃ objects : Objects Nat, (Objects.empty fun _ _ => 0xff).performAll
        [.construct 0 .ioError [0x61] [0x62], .copy 1 0, .assign 0 0, .move 2 0, .default 3,
          .moveAssign 3 2, .moveAssign 3 3, .assign 0 3, .destroy 1] = some objects ∧
      ∃ state, objects.state 0 = some state ∧
        toString objects.arrays state =
          some (literal "IO error: " ++ [0x61, 0x3a, 0x20, 0x62]) := by
  obtain ⟨objects, ran, alive, tell, _⟩ := @performAll_values Nat _
    [.construct 0 .ioError [0x61] [0x62], .copy 1 0, .assign 0 0, .move 2 0, .default 3,
      .moveAssign 3 2, .moveAssign 3 3, .assign 0 3, .destroy 1] _ rfl fun _ _ => 0xff
  obtain ⟨state, found⟩ := Option.isSome_iff_exists.mp (alive 0)
  exact ⟨objects, ran, state, found, (tell 0 _ state rfl found).2.2⟩

end StatusMemory

end MiniLevelDb
