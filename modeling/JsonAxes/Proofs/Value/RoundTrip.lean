import JsonAxes.Proofs.Value.Ascii
import JsonAxes.Proofs.Value.Printed

/-!
# Reading undoes printing

The lexer cuts the text of a printed value into tokens that spell the value, with `null` for the
numbers that have no spelling (`Layout.cutsInto_valueText`). What precedes the lexer only escapes
all but ASCII, as another layout would have done, and what follows it reads such tokens as the
value. So a value that is printed in whatever layout is read back, unless it nests too deep.
-/

set_option autoImplicit false

namespace JsonAxes

namespace Value

theorem not_spelledBy_nil (v : Value) : ¬ v.SpelledBy [] := by
  intro h
  cases h

end Value

namespace Layout

open Token

/-! ## Scalars -/

/-- The token of a printed string literal stands for the string. -/
theorem stringOf_eq (l : Layout) (s : String) (span : Span) :
    Reader.stringOf ⟨.string, String.ofList (s.toList.flatMap l.charText), span⟩ = .ok s := by
  rw [Reader.stringOf, String.toList_ofList, unescape_flatMap_charText]
  exact congrArg Except.ok String.ofList_toList

theorem cutsInto_stringValue (l : Layout) (s : String) (rest : List Char) :
    CutsInto (l.stringText s ++ rest) (Value.string s).SpelledBy rest := by
  intro offset
  obtain ⟨ts, offset', ⟨span, rfl⟩, hcuts⟩ := cutsInto_stringText l s rest offset
  exact ⟨_, offset', .string rfl (stringOf_eq l s span), hcuts⟩

theorem cutsInto_nullText (rest : List Char) :
    CutsInto ("null".toList ++ rest) Value.null.SpelledBy rest := by
  intro offset
  obtain ⟨ts, offset', ⟨span, rfl⟩, hcuts⟩ := cutsInto_null rest offset
  exact ⟨_, offset', .null rfl rfl, hcuts⟩

/-- A finite number is one token, which reads back as the number; any other is printed as `null`. -/
theorem cutsInto_numberText (n : Number) {rest : List Char} (h : EndsNumeral rest) :
    CutsInto (numberText n ++ rest) (Value.number n).printed.SpelledBy rest := by
  rw [numberText, Value.printed]
  by_cases hfinite : n.isFinite = true
  · rw [if_pos hfinite, if_pos hfinite]
    obtain ⟨x, -, hx, -⟩ := NumberFormat.exists_numeral .plain hfinite
    have hread := NumberFormat.ofText?_write .plain hfinite
    rw [hx] at hread ⊢
    intro offset
    obtain ⟨ts, offset', ⟨span, rfl⟩, hcuts⟩ := cutsInto_numeral x h offset
    refine ⟨_, offset', .number rfl ?_, hcuts⟩
    simp only [Reader.numberOf, String.toList_ofList, hread, hfinite, if_true]
  · rw [if_neg hfinite, if_neg hfinite]
    exact cutsInto_nullText rest

theorem cutsInto_boolText (b : Bool) (rest : List Char) :
    CutsInto ((if b then "true" else "false").toList ++ rest) (Value.bool b).SpelledBy rest := by
  intro offset
  cases b with
  | true =>
      obtain ⟨ts, offset', ⟨span, rfl⟩, hcuts⟩ := cutsInto_true rest offset
      exact ⟨_, offset', .bool rfl rfl, hcuts⟩
  | false =>
      obtain ⟨ts, offset', ⟨span, rfl⟩, hcuts⟩ := cutsInto_false rest offset
      exact ⟨_, offset', .bool rfl rfl, hcuts⟩

/-! ## White space -/

theorem isSkipped_blank {cs : List Char} (h : ∀ c ∈ cs, c = '\n' ∨ c = ' ') : IsSkipped cs := by
  refine isSkipped_of_blank fun c hc => ?_
  rcases h c hc with rfl | rfl
  · rfl
  · rfl

theorem isSkipped_gap (l : Layout) (lineBreak : Bool) (depth : Nat) :
    IsSkipped (l.gap lineBreak depth) := isSkipped_blank fun _ => mem_gap

theorem isSkipped_edge (l : Layout) (depth : Nat) : IsSkipped (l.edge depth) :=
  isSkipped_blank fun _ => mem_edge

/-- A numeral ends in front of white space and in front of what ends it without. -/
theorem endsNumeral_edge_append (l : Layout) (depth : Nat) {rest : List Char}
    (h : EndsNumeral rest) : EndsNumeral (l.edge depth ++ rest) := by
  rw [edge]
  split
  · exact endsNumeral_cons (by decide) _
  · exact h

theorem endsNumeral_elementsText_append (l : Layout) (depth : Nat) (vs : List Value)
    {rest : List Char} (h : EndsNumeral rest) : EndsNumeral (l.elementsText depth vs ++ rest) := by
  cases vs with
  | nil => exact h
  | cons v vs =>
      rw [elementsText]
      exact endsNumeral_cons (by decide) _

theorem endsNumeral_membersText_append (l : Layout) (depth : Nat) (ms : List (String × Value))
    {rest : List Char} (h : EndsNumeral rest) : EndsNumeral (l.membersText depth ms ++ rest) := by
  cases ms with
  | nil => exact h
  | cons m ms =>
      obtain ⟨key, v⟩ := m
      rw [membersText]
      exact endsNumeral_cons (by decide) _

/-! ## Values -/

/-- A punctuation mark behind white space. -/
theorem cutsInto_mark_behind {skipped : List Char} (hs : IsSkipped skipped) {c : Char}
    (hc : Lexer.singleKind c ≠ .unknown) (rest : List Char) :
    CutsInto (skipped ++ c :: rest) (IsSingle (Lexer.singleKind c) [c]) rest := by
  refine .skipped hs (cutsInto_mark hc rest) ?_
  rintro ⟨span, h⟩
  cases h

/-- A key behind white space. -/
theorem cutsInto_key_behind {skipped : List Char} (hs : IsSkipped skipped) (l : Layout)
    (key : String) (rest : List Char) :
    CutsInto (skipped ++ (l.stringText key ++ rest))
      (IsSingle .string (key.toList.flatMap l.charText)) rest := by
  refine .skipped hs (cutsInto_stringText l key rest) ?_
  rintro ⟨span, h⟩
  cases h

mutual

/-- The lexer cuts a printed value into tokens that spell it. -/
theorem cutsInto_valueText (l : Layout) (depth : Nat) (v : Value) {rest : List Char}
    (h : EndsNumeral rest) : CutsInto (l.valueText depth v ++ rest) v.printed.SpelledBy rest := by
  cases v with
  | string s =>
      rw [valueText]
      exact cutsInto_stringValue l s rest
  | number n => exact cutsInto_numberText n h
  | bool b =>
      rw [valueText]
      exact cutsInto_boolText b rest
  | null => exact cutsInto_nullText rest
  | array vs =>
      cases vs with
      | nil =>
          rw [valueText]
          intro offset
          obtain ⟨_, o₁, ⟨_, rfl⟩, h₁⟩ := cutsInto_mark (c := '[') (by decide) (']' :: rest) offset
          obtain ⟨_, o₂, ⟨_, rfl⟩, h₂⟩ := cutsInto_mark (c := ']') (by decide) rest o₁
          exact ⟨_, o₂, .emptyArray rfl rfl, h₁.append h₂⟩
      | cons v vs =>
          -- a numeral ends in front of the closing bracket, and in front of further elements
          have hclose := endsNumeral_edge_append l depth
            (endsNumeral_cons (c := ']') (by decide) rest)
          have hbehind := endsNumeral_elementsText_append l (depth + 1) vs hclose
          simp only [valueText, List.cons_append, List.append_assoc, List.nil_append]
          intro offset
          obtain ⟨_, o₁, ⟨_, rfl⟩, h₁⟩ := cutsInto_mark (c := '[') (by decide) _ offset
          obtain ⟨_, o₂, hv, h₂⟩ := (cutsInto_valueText l (depth + 1) v hbehind).skipped
            (isSkipped_edge l (depth + 1)) (Value.not_spelledBy_nil _) o₁
          obtain ⟨_, o₃, hvs, h₃⟩ := cutsInto_elementsText l (depth + 1) vs hclose o₂
          obtain ⟨_, o₄, ⟨_, rfl⟩, h₄⟩ := cutsInto_mark_behind (isSkipped_edge l depth) (c := ']')
            (by decide) rest o₃
          exact ⟨_, o₄, .array rfl hv hvs rfl, h₁.append (h₂.append (h₃.append h₄))⟩
  | object ms =>
      cases ms with
      | nil =>
          rw [valueText]
          intro offset
          obtain ⟨_, o₁, ⟨_, rfl⟩, h₁⟩ := cutsInto_mark (c := '\x7b') (by decide) ('\x7d' :: rest)
            offset
          obtain ⟨_, o₂, ⟨_, rfl⟩, h₂⟩ := cutsInto_mark (c := '\x7d') (by decide) rest o₁
          exact ⟨_, o₂, .emptyObject rfl rfl, h₁.append h₂⟩
      | cons m ms =>
          obtain ⟨key, v⟩ := m
          have hclose := endsNumeral_edge_append l depth
            (endsNumeral_cons (c := '\x7d') (by decide) rest)
          have hbehind := endsNumeral_membersText_append l (depth + 1) ms hclose
          simp only [valueText, List.cons_append, List.append_assoc, List.nil_append]
          intro offset
          obtain ⟨_, o₁, ⟨_, rfl⟩, h₁⟩ := cutsInto_mark (c := '\x7b') (by decide) _ offset
          obtain ⟨_, o₂, ⟨span, rfl⟩, h₂⟩ :=
            cutsInto_key_behind (isSkipped_edge l (depth + 1)) l key _ o₁
          obtain ⟨_, o₃, ⟨_, rfl⟩, h₃⟩ := cutsInto_mark (c := ':') (by decide) _ o₂
          obtain ⟨_, o₄, hv, h₄⟩ := (cutsInto_valueText l (depth + 1) v hbehind).skipped
            (isSkipped_gap l l.lineBreakAfterKey (depth + 1)) (Value.not_spelledBy_nil _) o₃
          obtain ⟨_, o₅, hms, h₅⟩ := cutsInto_membersText l (depth + 1) ms hclose o₄
          obtain ⟨_, o₆, ⟨_, rfl⟩, h₆⟩ := cutsInto_mark_behind (isSkipped_edge l depth)
            (c := '\x7d') (by decide) rest o₅
          exact ⟨_, o₆, .object rfl rfl (stringOf_eq l key span) rfl hv hms rfl,
            h₁.append (h₂.append (h₃.append (h₄.append (h₅.append h₆))))⟩

theorem cutsInto_elementsText (l : Layout) (depth : Nat) (vs : List Value) {rest : List Char}
    (h : EndsNumeral rest) :
    CutsInto (l.elementsText depth vs ++ rest)
      (Value.ElementsSpelledBy (Value.printedElements vs)) rest := by
  cases vs with
  | nil => exact .nil .nil
  | cons v vs =>
      have hbehind := endsNumeral_elementsText_append l depth vs h
      simp only [elementsText, List.cons_append, List.append_assoc]
      intro offset
      obtain ⟨_, o₁, ⟨_, rfl⟩, h₁⟩ := cutsInto_mark (c := ',') (by decide) _ offset
      obtain ⟨_, o₂, hv, h₂⟩ := (cutsInto_valueText l depth v hbehind).skipped
        (isSkipped_gap l l.arrayLineBreaks depth) (Value.not_spelledBy_nil _) o₁
      obtain ⟨_, o₃, hvs, h₃⟩ := cutsInto_elementsText l depth vs h o₂
      exact ⟨_, o₃, .cons rfl hv hvs, h₁.append (h₂.append h₃)⟩

theorem cutsInto_membersText (l : Layout) (depth : Nat) (ms : List (String × Value))
    {rest : List Char} (h : EndsNumeral rest) :
    CutsInto (l.membersText depth ms ++ rest)
      (Value.MembersSpelledBy (Value.printedMembers ms)) rest := by
  cases ms with
  | nil => exact .nil .nil
  | cons m ms =>
      obtain ⟨key, v⟩ := m
      have hbehind := endsNumeral_membersText_append l depth ms h
      simp only [membersText, List.cons_append, List.append_assoc]
      intro offset
      obtain ⟨_, o₁, ⟨_, rfl⟩, h₁⟩ := cutsInto_mark (c := ',') (by decide) _ offset
      obtain ⟨_, o₂, ⟨span, rfl⟩, h₂⟩ := cutsInto_key_behind
        (isSkipped_gap l l.objectLineBreaks depth) l key _ o₁
      obtain ⟨_, o₃, ⟨_, rfl⟩, h₃⟩ := cutsInto_mark (c := ':') (by decide) _ o₂
      obtain ⟨_, o₄, hv, h₄⟩ := (cutsInto_valueText l depth v hbehind).skipped
        (isSkipped_gap l l.lineBreakAfterKey depth) (Value.not_spelledBy_nil _) o₃
      obtain ⟨_, o₅, hms, h₅⟩ := cutsInto_membersText l depth ms h o₄
      exact ⟨_, o₅, .cons rfl rfl (stringOf_eq l key span) rfl hv hms,
        h₁.append (h₂.append (h₃.append (h₄.append h₅)))⟩

end

end Layout

namespace Value

/-! ## There and back -/

/-- The tokens of a printed value spell it. -/
theorem exists_lex_valueText (l : Layout) (depth : Nat) (v : Value) :
    ∃ ts, Token.lex (String.ofList (l.valueText depth v)) = .ok ts ∧ v.printed.SpelledBy ts := by
  obtain ⟨ts, offset, hts, hcuts⟩ := Layout.cutsInto_valueText l depth v Token.endsNumeral_nil 0
  refine ⟨ts, ?_, hts⟩
  rw [List.append_nil] at hcuts
  have hdrain := Lexer.drain_of_cuts hcuts
  rw [Lexer.drain_of_isSkipped Token.isSkipped_nil, List.append_nil] at hdrain
  rw [Token.lex, Lexer.ofText, String.toList_ofList, hdrain]

/-- Reading a printed value comes down to reading tokens that spell it. -/
theorem exists_ofText?_print (v : Value) (l : Layout) :
    ∃ ts, v.printed.SpelledBy ts ∧ ∀ limit, ofText? limit (v.print l) = ofTokens? limit ts := by
  -- the canonical form of what is printed is what the ASCII layout prints
  obtain ⟨ts, hlex, hspelled⟩ := exists_lex_valueText l.ascii 0 v
  have hcanonical : Canonical.ofText (v.print l) = .ok (String.ofList (l.ascii.valueText 0 v)) := by
    rw [Canonical.ofText, print, String.toList_ofList,
      Canonical.ofChars_of_becomes (Layout.becomes_valueText l 0 v)]
    rfl
  refine ⟨ts, hspelled, fun limit => ?_⟩
  rw [ofText?, hcanonical]
  exact congrArg (·.bind (ofTokens? limit)) hlex

/-- **Reading undoes printing.** In whatever layout a value is printed, reading the text gives the
value back, with `null` for the numbers that are not finite, if as many containers may be open at
once as the value nests; otherwise it fails for that reason. -/
theorem ofText?_print (v : Keyed) (l : Layout) (limit : Nat) :
    (v.value.nesting ≤ limit → ofText? limit (v.value.print l) = .ok v.value.printed)
    ∧ (limit < v.value.nesting →
      ∃ span, ofText? limit (v.value.print l) = .error (.nestingTooDeep limit span)) := by
  obtain ⟨ts, hspelled, hread⟩ := exists_ofText?_print v.value l
  have htokens := ofTokens?_of_spelledBy hspelled limit
  rw [nesting_printed, merged_printed v.value v.distinct] at htokens
  rwa [hread]

/-- A value with a key that needs escapes, a negative zero, and a number that is not finite. -/
def mixed : Keyed where
  value := .object [("\\\\\u00e9\"", .array [.number (.ofParts true 0), .null]),
    ("", .object [("n", .number .nan), ("m", .number (.ofNat 15))])]
  distinct := by decide

theorem ofText?_print_mixed :
    mixed.value.nesting = 2
    ∧ ofText? 2 (mixed.value.print .pretty) = .ok (.object
      [("\\\\\u00e9\"", .array [.number (.ofParts true 0), .null]),
        ("", .object [("n", .null), ("m", .number (.ofNat 15))])])
    ∧ ∃ span, ofText? 1 (mixed.value.print .compact) = .error (.nestingTooDeep 1 span) := by
  have hnesting : mixed.value.nesting = 2 := rfl
  refine ⟨hnesting, ?_, ?_⟩
  · exact (ofText?_print mixed .pretty 2).1 (Nat.le_of_eq hnesting)
  · exact (ofText?_print mixed .compact 1).2 (by rw [hnesting]; decide)

end Value

end JsonAxes
