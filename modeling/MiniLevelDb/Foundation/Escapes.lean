import Mathlib.Data.List.Basic

/-!
# Escapes in text

Symbols that are not plain are written as a plain lead symbol and a fixed number of other
plain symbols after it. The lead symbol itself is not escaped, so a text that holds what
looks like an escape is written as the text with the escaped symbol is. Which texts are
written alike is what `unescape` says.
-/

namespace Foundation

/-- How symbols are escaped, and how the symbols after the lead symbol are read. -/
structure Escapes (Symbol : Type) where
  plain : Symbol → Bool
  lead : Symbol
  code : Symbol → List Symbol
  width : Nat
  decode : List Symbol → Option Symbol
  lead_plain : plain lead = true
  code_length : ∀ symbol, plain symbol = false → (code symbol).length = width
  code_plain : ∀ symbol, plain symbol = false →
    ∀ other ∈ code symbol, plain other = true ∧ other ≠ lead
  decode_iff : ∀ {tail symbol}, decode tail = some symbol ↔
    plain symbol = false ∧ code symbol = tail

namespace Escapes

variable {Symbol : Type} (escapes : Escapes Symbol)

/-- What is written for a symbol. -/
def symbol (symbol : Symbol) : List Symbol :=
  if escapes.plain symbol then [symbol] else escapes.lead :: escapes.code symbol

def escape (text : List Symbol) : List Symbol :=
  text.flatMap escapes.symbol

variable {escapes} {first symbol : Symbol} {text rest : List Symbol}

theorem symbol_plain (plain : escapes.plain first = true) : escapes.symbol first = [first] :=
  if_pos plain

theorem symbol_escaped (unplain : escapes.plain first = false) :
    escapes.symbol first = escapes.lead :: escapes.code first := by
  rw [Escapes.symbol, unplain]
  exact if_neg Bool.false_ne_true

@[simp]
theorem escape_cons :
    escapes.escape (first :: rest) = escapes.symbol first ++ escapes.escape rest :=
  rfl

@[simp]
theorem escape_append (left right : List Symbol) :
    escapes.escape (left ++ right) = escapes.escape left ++ escapes.escape right :=
  List.flatMap_append

/-- Everything that is written is plain. -/
theorem escape_plain (text : List Symbol) :
    ∀ symbol ∈ escapes.escape text, escapes.plain symbol = true := by
  intro symbol member
  obtain ⟨source, _, written⟩ := List.mem_flatMap.mp member
  cases plain : escapes.plain source with
  | true =>
      rw [symbol_plain plain, List.mem_singleton] at written
      rw [written, plain]
  | false =>
      rw [symbol_escaped plain, List.mem_cons] at written
      rcases written with rfl | written
      · exact escapes.lead_plain
      · exact (escapes.code_plain source plain symbol written).1

/-- Plain text is written as it is. -/
theorem escape_of_plain (plain : ∀ symbol ∈ text, escapes.plain symbol = true) :
    escapes.escape text = text := by
  induction text with
  | nil => rfl
  | cons first rest ih =>
      rw [escape_cons, symbol_plain (plain first List.mem_cons_self),
        ih fun symbol member => plain symbol (List.mem_cons_of_mem _ member)]
      rfl

/-- What looks like an escape is written as it is, like the symbol it would stand for. -/
theorem escape_escaped (unplain : escapes.plain symbol = false) (rest : List Symbol) :
    escapes.escape (escapes.lead :: (escapes.code symbol ++ rest)) =
      escapes.lead :: (escapes.code symbol ++ escapes.escape rest) := by
  have plain : escapes.escape (escapes.code symbol) = escapes.code symbol :=
    escape_of_plain fun other member => (escapes.code_plain symbol unplain other member).1
  rw [escape_cons, symbol_plain escapes.lead_plain, escape_append, plain]
  rfl

/-- What holds no lead symbol and is written somewhere is there. -/
theorem prefix_of_prefix_escape {part : List Symbol}
    (apart : ∀ symbol ∈ part, symbol ≠ escapes.lead) (isPrefix : part <+: escapes.escape text) :
    part <+: text := by
  induction part generalizing text with
  | nil => exact List.nil_prefix
  | cons first part ih =>
      cases text with
      | nil => exact isPrefix
      | cons head rest =>
          cases plain : escapes.plain head with
          | true =>
              rw [escape_cons, symbol_plain plain, List.singleton_append,
                List.cons_prefix_cons] at isPrefix
              rw [List.cons_prefix_cons]
              exact ⟨isPrefix.1, ih (fun symbol member => apart symbol
                (List.mem_cons_of_mem _ member)) isPrefix.2⟩
          | false =>
              rw [escape_cons, symbol_escaped plain, List.cons_append,
                List.cons_prefix_cons] at isPrefix
              exact absurd isPrefix.1 (apart first List.mem_cons_self)

variable (escapes) [DecidableEq Symbol]

/-- The symbol whose escape a text begins with. -/
def escaped? (text : List Symbol) : Option Symbol :=
  if text.head? = some escapes.lead then escapes.decode (text.tail.take escapes.width) else none

/-- The text with what is, or looks like, an escape taken for the symbol. -/
def unescape : List Symbol → List Symbol
  | [] => []
  | first :: rest =>
      match escapes.escaped? (first :: rest) with
      | some symbol => symbol :: unescape (rest.drop escapes.width)
      | none => first :: unescape rest
termination_by text => text.length
decreasing_by
  · rw [List.length_drop, List.length_cons]
    omega
  · exact Nat.lt_succ_self _

variable {escapes}

theorem escaped?_iff :
    escapes.escaped? text = some symbol ↔
      escapes.plain symbol = false ∧
        ∃ rest, text = escapes.lead :: (escapes.code symbol ++ rest) := by
  constructor
  · intro found
    unfold escaped? at found
    split at found
    case isTrue leads =>
      obtain ⟨unplain, code⟩ := escapes.decode_iff.mp found
      obtain ⟨tail, rfl⟩ := List.head?_eq_some_iff.mp leads
      refine ⟨unplain, tail.drop escapes.width, ?_⟩
      rw [code]
      exact congrArg _ (List.take_append_drop _ _).symm
    case isFalse => cases found
  · rintro ⟨unplain, rest, rfl⟩
    have taken : (escapes.code symbol ++ rest).take escapes.width = escapes.code symbol := by
      rw [← escapes.code_length symbol unplain, List.take_left]
    rw [escaped?, List.head?_cons, if_pos rfl, List.tail_cons, taken]
    exact escapes.decode_iff.mpr ⟨unplain, rfl⟩

theorem unescape_of_escaped (unplain : escapes.plain symbol = false) (rest : List Symbol) :
    escapes.unescape (escapes.lead :: (escapes.code symbol ++ rest)) =
      symbol :: escapes.unescape rest := by
  have found := escaped?_iff.mpr ⟨unplain, rest, rfl⟩
  rw [unescape, found]
  dsimp only
  rw [← escapes.code_length symbol unplain, List.drop_left]

theorem unescape_of_none (none_ : escapes.escaped? (first :: rest) = none) :
    escapes.unescape (first :: rest) = first :: escapes.unescape rest := by
  rw [unescape, none_]

/-- Text without the lead symbol is taken as it is. -/
theorem unescape_of_apart (apart : escapes.lead ∉ text) : escapes.unescape text = text := by
  induction text with
  | nil => rw [unescape]
  | cons first rest ih =>
      have none_ : escapes.escaped? (first :: rest) = none := by
        rw [escaped?, List.head?_cons]
        refine if_neg fun same => apart ?_
        rw [Option.some.inj same]
        exact List.mem_cons_self
      rw [unescape_of_none none_, ih fun member => apart (List.mem_cons_of_mem _ member)]

variable (escapes) in
/-- A text splits where it looks like an escape, or does not. -/
theorem unescape_induction {motive : List Symbol → Prop} (nil : motive [])
    (escaped : ∀ symbol rest, escapes.plain symbol = false → motive rest →
      motive (escapes.lead :: (escapes.code symbol ++ rest)))
    (none_ : ∀ first rest, escapes.escaped? (first :: rest) = none → motive rest →
      motive (first :: rest)) (text : List Symbol) : motive text := by
  induction text using unescape.induct escapes with
  | case1 => exact nil
  | case2 first rest symbol found ih =>
      obtain ⟨unplain, tail, same⟩ := escaped?_iff.mp found
      cases same
      rw [← escapes.code_length symbol unplain, List.drop_left] at ih
      exact escaped symbol tail unplain ih
  | case3 first rest found ih => exact none_ first rest found ih

theorem escape_unescape (text : List Symbol) :
    escapes.escape (escapes.unescape text) = escapes.escape text := by
  induction text using unescape_induction escapes with
  | nil => rw [unescape]
  | escaped symbol rest unplain ih =>
      rw [unescape_of_escaped unplain, escape_escaped unplain, escape_cons, ih,
        symbol_escaped unplain]
      rfl
  | none_ first rest found ih => rw [unescape_of_none found, escape_cons, escape_cons, ih]

theorem unescape_escape (text : List Symbol) :
    escapes.unescape (escapes.escape text) = escapes.unescape text := by
  induction text using unescape_induction escapes with
  | nil => rfl
  | escaped symbol rest unplain ih =>
      rw [escape_escaped unplain, unescape_of_escaped unplain, unescape_of_escaped unplain, ih]
  | none_ first rest found ih =>
      cases plain : escapes.plain first with
      | false =>
          rw [escape_cons, symbol_escaped plain, List.cons_append, unescape_of_escaped plain,
            unescape_of_none found, ih]
      | true =>
          have still : escapes.escaped? (first :: escapes.escape rest) = none := by
            rw [Option.eq_none_iff_forall_ne_some]
            intro symbol appears
            obtain ⟨unplain, tail, same⟩ := escaped?_iff.mp appears
            obtain ⟨rfl, written⟩ := List.cons.inj same
            obtain ⟨tail, rfl⟩ := prefix_of_prefix_escape
              (fun other member => (escapes.code_plain symbol unplain other member).2)
              ⟨tail, written.symm⟩
            rw [escaped?_iff.mpr ⟨unplain, tail, rfl⟩] at found
            cases found
          rw [escape_cons, symbol_plain plain, List.singleton_append, unescape_of_none found,
            unescape_of_none still, ih]

/-- Two texts are written alike exactly when they are the same with every escape taken for
its symbol. -/
theorem escape_eq_iff (left right : List Symbol) :
    escapes.escape left = escapes.escape right ↔
      escapes.unescape left = escapes.unescape right := by
  constructor
  · intro same
    rw [← unescape_escape left, same, unescape_escape]
  · intro same
    rw [← escape_unescape left, same, escape_unescape]

end Escapes

end Foundation
