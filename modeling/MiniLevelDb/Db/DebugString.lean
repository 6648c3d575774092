import MiniLevelDb.Db.InternalKey
import MiniLevelDb.Util.EscapeString
import MiniLevelDb.Util.Logging

/-!
# Internal keys in messages

`DebugString` prints an internal key: the user key as an escaped string, the sequence number
and the type in decimal. An escaped string does not tell a character from its escape, so
this is what can be read off a message.
-/

namespace MiniLevelDb

open Foundation

/-- `ParsedInternalKey::DebugString`; a stream prints numbers in decimal. -/
def ParsedInternalKey.debugString (key : ParsedInternalKey) : Slice :=
  [0x27] ++ escapeString key.userKey ++ [0x27, 0x20, 0x40, 0x20] ++
    decimalDigits key.sequence ++ [0x20, 0x3a, 0x20] ++ decimalDigits key.type.code

/-- `InternalKey::DebugString`. -/
def InternalKey.debugString (rep : Slice) : Slice :=
  match parseInternalKey rep with
  | some parsed => parsed.debugString
  | none => [0x28, 0x62, 0x61, 0x64, 0x29] ++ escapeString rep

/-- What a message shows: a key whose user key is known up to its escapes, or bytes that are
no key, up to theirs. -/
def InternalKey.shown (rep : Slice) : Slice ⊕ ParsedInternalKey :=
  match parseInternalKey rep with
  | some parsed => .inr { parsed with userKey := stringEscapes.unescape parsed.userKey }
  | none => .inl (stringEscapes.unescape rep)

theorem escapeString_eq_iff (left right : Slice) :
    escapeString left = escapeString right ↔
      stringEscapes.unescape left = stringEscapes.unescape right := by
  rw [escapeString_eq, escapeString_eq, Escapes.escape_eq_iff]

/-- A number behind a blank is found from the end of the text. -/
theorem append_decimalDigits_inj {first second : Slice} {left right : BitVec 64}
    (same : first ++ [0x20] ++ decimalDigits left = second ++ [0x20] ++ decimalDigits right) :
    first = second ∧ left = right := by
  have taken : ∀ (text : Slice) (num : BitVec 64),
      (text ++ [0x20] ++ decimalDigits num).reverse.takeWhile isDigit =
        (decimalDigits num).reverse := by
    intro text num
    have digits : ∀ byte ∈ (decimalDigits num).reverse, isDigit byte = true :=
      fun byte member => decimalDigits_isDigit num byte (List.mem_reverse.mp member)
    rw [List.reverse_append, List.reverse_append, List.takeWhile_append_of_pos digits]
    exact List.append_nil _
  have digits : decimalDigits left = decimalDigits right := by
    rw [← List.reverse_inj, ← taken first, same, taken]
  refine ⟨?_, ?_⟩
  · rw [digits] at same
    exact List.append_cancel_right (List.append_cancel_right same)
  · apply BitVec.eq_of_toNat_eq
    rw [← decimalValue_decimalDigits, digits, decimalValue_decimalDigits]

theorem ValueType.code_inj {left right : ValueType} (same : left.code = right.code) :
    left = right := by
  cases left <;> cases right <;> first | rfl | cases same

/-- The two numbers and the blanks in front of them. -/
theorem ParsedInternalKey.debugString_split (key : ParsedInternalKey) :
    key.debugString = [0x27] ++ escapeString key.userKey ++ [0x27, 0x20, 0x40] ++ [0x20] ++
      decimalDigits key.sequence ++ [0x20, 0x3a] ++ [0x20] ++ decimalDigits key.type.code := by
  simp only [debugString, List.append_assoc, List.cons_append, List.nil_append]

theorem ParsedInternalKey.debugString_eq_iff (left right : ParsedInternalKey) :
    left.debugString = right.debugString ↔
      ({ left with userKey := stringEscapes.unescape left.userKey } : ParsedInternalKey) =
        { right with userKey := stringEscapes.unescape right.userKey } := by
  rw [ParsedInternalKey.mk.injEq, ← escapeString_eq_iff]
  constructor
  · intro same
    rw [debugString_split, debugString_split] at same
    obtain ⟨front, types⟩ := append_decimalDigits_inj same
    obtain ⟨keys, sequences⟩ := append_decimalDigits_inj (List.append_cancel_right front)
    have quoted := List.append_cancel_right keys
    exact ⟨List.append_cancel_left quoted, sequences, ValueType.code_inj types⟩
  · rintro ⟨keys, sequences, types⟩
    rw [debugString, debugString, keys, sequences, types]

namespace InternalKey

theorem debugString_of_parsed {rep : Slice} {parsed : ParsedInternalKey}
    (accepted : parseInternalKey rep = some parsed) :
    debugString rep = parsed.debugString ∧
      shown rep = .inr { parsed with userKey := stringEscapes.unescape parsed.userKey } := by
  rw [debugString, shown, accepted]
  exact ⟨rfl, rfl⟩

theorem debugString_of_bad {rep : Slice} (refused : parseInternalKey rep = none) :
    debugString rep = [0x28, 0x62, 0x61, 0x64, 0x29] ++ escapeString rep ∧
      shown rep = .inl (stringEscapes.unescape rep) := by
  rw [debugString, shown, refused]
  exact ⟨rfl, rfl⟩

theorem debugString_eq_iff (left right : Slice) :
    debugString left = debugString right ↔ shown left = shown right := by
  cases leftIs : parseInternalKey left with
  | some parsed =>
      obtain ⟨leftText, leftShown⟩ := debugString_of_parsed leftIs
      cases rightIs : parseInternalKey right with
      | some other =>
          obtain ⟨rightText, rightShown⟩ := debugString_of_parsed rightIs
          rw [leftText, rightText, leftShown, rightShown, Sum.inr.injEq]
          exact ParsedInternalKey.debugString_eq_iff parsed other
      | none =>
          obtain ⟨rightText, rightShown⟩ := debugString_of_bad rightIs
          rw [leftText, rightText, leftShown, rightShown]
          refine iff_of_false (fun same => ?_) Sum.inr_ne_inl
          cases congrArg List.head? same
  | none =>
      obtain ⟨leftText, leftShown⟩ := debugString_of_bad leftIs
      cases rightIs : parseInternalKey right with
      | some other =>
          obtain ⟨rightText, rightShown⟩ := debugString_of_parsed rightIs
          rw [leftText, rightText, leftShown, rightShown]
          refine iff_of_false (fun same => ?_) Sum.inl_ne_inr
          cases congrArg List.head? same
      | none =>
          obtain ⟨rightText, rightShown⟩ := debugString_of_bad rightIs
          rw [leftText, rightText, leftShown, rightShown, Sum.inl.injEq,
            List.append_right_inj, escapeString_eq_iff]

theorem isPrintable_of_isDigit : ∀ c, isDigit c = true → isPrintable c = true := by
  decide +kernel

theorem debugString_printable (rep : Slice) : ∀ c ∈ debugString rep, isPrintable c = true := by
  have escapes : ∀ text, ∀ c ∈ escapeString text, isPrintable c = true := by
    intro text
    rw [escapeString_eq]
    exact stringEscapes.escape_plain text
  have digits : ∀ num, ∀ c ∈ decimalDigits num, isPrintable c = true :=
    fun num c member => isPrintable_of_isDigit c (decimalDigits_isDigit num c member)
  have fixed : ∀ text : Slice, text.all isPrintable = true → ∀ c ∈ text, isPrintable c = true :=
    fun _ all => List.all_eq_true.mp all
  intro c member
  cases is : parseInternalKey rep with
  | some parsed =>
      rw [(debugString_of_parsed is).1, ParsedInternalKey.debugString] at member
      simp only [List.mem_append] at member
      rcases member with ((((quote | inKey) | between) | inSequence) | colon) | inType
      · exact fixed _ rfl c quote
      · exact escapes _ c inKey
      · exact fixed _ rfl c between
      · exact digits _ c inSequence
      · exact fixed _ rfl c colon
      · exact digits _ c inType
  | none =>
      rw [(debugString_of_bad is).1, List.mem_append] at member
      rcases member with bad | inRep
      · exact fixed _ rfl c bad
      · exact escapes _ c inRep

/-- The user key of an internal key without a backslash has none. -/
theorem unescape_userKey {rep : Slice} {parsed : ParsedInternalKey} (apart : 0x5c ∉ rep)
    (accepted : parseInternalKey rep = some parsed) :
    stringEscapes.unescape parsed.userKey = parsed.userKey := by
  obtain ⟨small, appended⟩ := appendInternalKey_parsed accepted
  have whole := (appendInternalKey_eq small []).symm.trans (appended [])
  have split : internalKeyOf parsed.userKey (parsed.sequence <<< 8 ||| parsed.type.code) = rep :=
    Option.some.inj whole
  refine Escapes.unescape_of_apart fun member => apart ?_
  rw [← split]
  exact List.mem_append_left _ member

/-- Without a backslash, what is shown is the key. -/
theorem shown_inj {left right : Slice} (leftApart : 0x5c ∉ left) (rightApart : 0x5c ∉ right)
    (same : shown left = shown right) : left = right := by
  cases leftIs : parseInternalKey left with
  | some parsed =>
      cases rightIs : parseInternalKey right with
      | some other =>
          rw [(debugString_of_parsed leftIs).2, (debugString_of_parsed rightIs).2,
            unescape_userKey leftApart leftIs, unescape_userKey rightApart rightIs] at same
          have keys : parsed = other := Sum.inr.inj same
          subst keys
          have whole := ((appendInternalKey_parsed leftIs).2 []).symm.trans
            ((appendInternalKey_parsed rightIs).2 [])
          exact Option.some.inj whole
      | none =>
          rw [(debugString_of_parsed leftIs).2, (debugString_of_bad rightIs).2] at same
          cases same
  | none =>
      cases rightIs : parseInternalKey right with
      | some other =>
          rw [(debugString_of_bad leftIs).2, (debugString_of_parsed rightIs).2] at same
          cases same
      | none =>
          rw [(debugString_of_bad leftIs).2, (debugString_of_bad rightIs).2,
            Escapes.unescape_of_apart leftApart, Escapes.unescape_of_apart rightApart] at same
          exact Sum.inl.inj same

/-- Messages show what `shown` says and no more: two internal keys are printed alike exactly
when it is the same for both. All that is printed is printable, and internal keys without a
backslash are never printed alike. -/
theorem debugString_shows (left right : Slice) :
    (debugString left = debugString right ↔ shown left = shown right) ∧
      (∀ c ∈ debugString left, isPrintable c = true) ∧
      (0x5c ∉ left → 0x5c ∉ right → debugString left = debugString right → left = right) := by
  refine ⟨debugString_eq_iff left right, debugString_printable left, ?_⟩
  intro leftApart rightApart same
  exact shown_inj leftApart rightApart ((debugString_eq_iff left right).mp same)

/-- A backslash and what follows it are printed like the character that they escape. -/
example : debugString [0x5c, 0x78, 0x30, 0x30] = debugString [0x00] := by decide

end InternalKey

end MiniLevelDb
