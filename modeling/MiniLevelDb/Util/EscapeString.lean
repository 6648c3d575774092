import MiniLevelDb.Foundation.Escapes
import MiniLevelDb.Util.Slice

/-!
# Escaped strings

Printable characters are written as they are, others as `\x` and two hexadecimal digits. A
backslash is printable.
-/

namespace MiniLevelDb

open Foundation

/-- The comparison with `' '` and `'~'`, of signed characters. -/
def isPrintable (c : Byte) : Bool := (0x20#8).sle c && c.sle 0x7e

/-- A digit of `%x`. -/
def hexDigit (digit : Byte) : Byte := if digit < 10 then 0x30 + digit else 0x57 + digit

/-- What `%02x` prints of a number of eight bits. -/
def hexByte (number : BitVec 32) : Slice :=
  let byte := number.setWidth 8
  [hexDigit (byte >>> 4), hexDigit (byte &&& 0xf)]

/-- `AppendEscapedStringTo`. -/
def appendEscapedStringTo (str value : Slice) : Slice :=
  value.foldl (fun str c =>
    if isPrintable c then str ++ [c]
    else str ++ ([0x5c, 0x78] ++ hexByte (c.signExtend 32 &&& 0xff))) str

def escapeString (value : Slice) : Slice := appendEscapedStringTo [] value

/-! ## Reading escapes -/

/-- The digit that a character of `%x` stands for. -/
def hexValue? (c : Byte) : Option Byte :=
  if 0x30 ≤ c ∧ c ≤ 0x39 then some (c - 0x30)
  else if 0x61 ≤ c ∧ c ≤ 0x66 then some (c - 0x57)
  else none

/-- The character that is escaped by a backslash and these characters. -/
def unescapeByte? : Slice → Option Byte
  | [mark, high, low] => do
      let byte := (← hexValue? high) <<< 4 ||| (← hexValue? low)
      if mark = 0x78 ∧ isPrintable byte = false then some byte else none
  | _ => none

/-- What follows the backslash. -/
def escapeTail (c : Byte) : Slice := 0x78 :: hexByte (c.signExtend 32 &&& 0xff)

theorem escapeTail_eq : ∀ c, escapeTail c = [0x78, hexDigit (c >>> 4), hexDigit (c &&& 0xf)] := by
  decide +kernel

theorem hexValue?_hexDigit : ∀ digit < 16, hexValue? (hexDigit digit) = some digit := by
  decide +kernel

theorem all_hexValue? : ∀ c, (hexValue? c).all fun digit => digit < 16 && hexDigit digit == c := by
  decide +kernel

theorem hexDigit_hexValue? {c digit : Byte} (found : hexValue? c = some digit) :
    digit < 16 ∧ hexDigit digit = c := by
  have all := all_hexValue? c
  rw [found, Option.all_some, Bool.and_eq_true, decide_eq_true_eq, beq_iff_eq] at all
  exact all

/-- A byte and its two halves. -/
theorem halves :
    ∀ c : Byte, c >>> 4 < 16 ∧ c &&& 0xf < 16 ∧ (c >>> 4) <<< 4 ||| (c &&& 0xf) = c := by
  decide +kernel

theorem halves_ofNat : ∀ high low : Fin 16,
    (BitVec.ofNat 8 high <<< 4 ||| BitVec.ofNat 8 low) >>> 4 = BitVec.ofNat 8 high ∧
      (BitVec.ofNat 8 high <<< 4 ||| BitVec.ofNat 8 low) &&& 0xf = BitVec.ofNat 8 low := by
  decide +kernel

theorem halves_of {high low : Byte} (highSmall : high < 16) (lowSmall : low < 16) :
    (high <<< 4 ||| low) >>> 4 = high ∧ (high <<< 4 ||| low) &&& 0xf = low := by
  have both := halves_ofNat ⟨high.toNat, highSmall⟩ ⟨low.toNat, lowSmall⟩
  dsimp only at both
  rw [BitVec.ofNat_toNat, BitVec.ofNat_toNat, BitVec.setWidth_eq, BitVec.setWidth_eq] at both
  exact both

/-- Exactly the characters that are escaped are read, and as they are escaped. -/
theorem unescapeByte?_iff {tail : Slice} {c : Byte} :
    unescapeByte? tail = some c ↔ isPrintable c = false ∧ escapeTail c = tail := by
  constructor
  · intro found
    unfold unescapeByte? at found
    split at found
    case h_1 mark high low =>
      obtain ⟨upper, isUpper, continued⟩ := Option.bind_eq_some_iff.mp found
      obtain ⟨lower, isLower, read⟩ := Option.bind_eq_some_iff.mp continued
      obtain ⟨upperSmall, rfl⟩ := hexDigit_hexValue? isUpper
      obtain ⟨lowerSmall, rfl⟩ := hexDigit_hexValue? isLower
      obtain ⟨first, second⟩ := halves_of upperSmall lowerSmall
      dsimp only at read
      rw [Option.ite_none_right_eq_some] at read
      obtain ⟨⟨rfl, unprintable⟩, same⟩ := read
      cases same
      refine ⟨unprintable, ?_⟩
      rw [escapeTail_eq, first, second]
    case h_2 => cases found
  · rintro ⟨unprintable, rfl⟩
    obtain ⟨upperSmall, lowerSmall, whole⟩ := halves c
    rw [escapeTail_eq, unescapeByte?, hexValue?_hexDigit _ upperSmall,
      hexValue?_hexDigit _ lowerSmall]
    dsimp only [Option.bind_eq_bind, Option.bind_some]
    rw [whole, if_pos ⟨rfl, unprintable⟩]

theorem all_escapeTail :
    ∀ c, (escapeTail c).all fun other => isPrintable other && other != 0x5c := by
  decide +kernel

theorem escapeTail_plain (c : Byte) :
    ∀ other ∈ escapeTail c, isPrintable other = true ∧ other ≠ 0x5c := by
  intro other member
  have plain := List.all_eq_true.mp (all_escapeTail c) other member
  rw [Bool.and_eq_true, bne_iff_ne] at plain
  exact plain

theorem isPrintable_backslash : isPrintable 0x5c = true := by
  decide

/-- The escapes of `AppendEscapedStringTo`. -/
def stringEscapes : Escapes Byte where
  plain := isPrintable
  lead := 0x5c
  code := escapeTail
  width := 3
  decode := unescapeByte?
  lead_plain := isPrintable_backslash
  code_length := fun _ _ => rfl
  code_plain := fun c _ => escapeTail_plain c
  decode_iff := unescapeByte?_iff

theorem appendEscapedStringTo_eq (str value : Slice) :
    appendEscapedStringTo str value = str ++ stringEscapes.escape value := by
  rw [appendEscapedStringTo]
  induction value generalizing str with
  | nil => exact (List.append_nil _).symm
  | cons c rest ih =>
      rw [List.foldl_cons, ih, Escapes.escape_cons, ← List.append_assoc]
      cases printable : isPrintable c with
      | true =>
          have same : stringEscapes.symbol c = [c] := Escapes.symbol_plain printable
          rw [if_pos rfl, same, List.append_assoc]
      | false =>
          have same : stringEscapes.symbol c = 0x5c :: escapeTail c :=
            Escapes.symbol_escaped printable
          rw [if_neg Bool.false_ne_true, same, List.append_assoc, List.append_assoc]
          rfl

theorem escapeString_eq (value : Slice) : escapeString value = stringEscapes.escape value := by
  rw [escapeString, appendEscapedStringTo_eq, List.nil_append]

end MiniLevelDb
