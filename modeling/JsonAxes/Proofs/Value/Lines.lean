import JsonAxes.Proofs.Value.Characters
import JsonAxes.Proofs.Value.Grammar
import JsonAxes.Proofs.Value.Signs

/-!
# Lines of printed text

The depth that printing passes along is the number of brackets that are open: each piece of printed
text is as deep as brackets were opened and not closed in front of it, without the one that it
closes (`Layout.Nested.level_eq`). So every line of printed text is indented by the brackets that
are open there (`Value.print_lines`).
-/

set_option autoImplicit false

namespace JsonAxes

/-- Whether a text goes on behind another as a line does that is indented by a width for each
bracket that is open, without one that is closed next. -/
def Text.ContinuesLine (width : Nat) (before behind : List Char) : Prop :=
  ∃ level c rest, behind = List.replicate (width * level) ' ' ++ c :: rest ∧ c ≠ ' ' ∧ c ≠ '\n'
    ∧ opened before = closed before + level + if isClosing c then 1 else 0

namespace Layout

open Text Value

/-! ## Depth and brackets -/

/-- How some pieces lead from one number of open brackets to another: each of them is at most so
deep, and as deep as brackets are open, without the one that it closes. -/
inductive Nested (bound : Nat) : Nat → List Piece → Nat → Prop where
  | nil {level : Nat} : Nested bound level [] level
  | cons {level final : Nat} {p : Piece} {ps : List Piece} (hbound : p.depth ≤ bound)
      (hlevel : level = p.depth + p.sign.closed)
      (h : Nested bound (p.depth + p.sign.opened) ps final) : Nested bound level (p :: ps) final

namespace Nested

variable {bound level middle final : Nat} {p : Piece} {ps qs : List Piece}

theorem append (hps : Nested bound level ps middle) (hqs : Nested bound middle qs final) :
    Nested bound level (ps ++ qs) final := by
  induction hps with
  | nil => exact hqs
  | cons hbound hlevel _ ih => exact .cons hbound hlevel (ih hqs)

/-- A piece that is no bracket. -/
theorem singleton (hbound : p.depth ≤ bound) (hlevel : level = p.depth)
    (h : p.sign.opened = 0 ∧ p.sign.closed = 0) : Nested bound level [p] level := by
  have hnil : Nested bound (p.depth + p.sign.opened) [] level := by
    rw [h.1, hlevel]
    exact .nil
  exact .cons hbound (by rw [h.2, hlevel, Nat.add_zero]) hnil

/-- How deep a piece is, given the signs in front of it. -/
theorem level_eq (h : Nested bound level (ps ++ p :: qs) final) :
    p.depth ≤ bound
      ∧ level + (ps.map fun q => q.sign.opened).sum
        = (ps.map fun q => q.sign.closed).sum + (p.depth + p.sign.closed) := by
  induction ps generalizing level with
  | nil =>
      cases h with
      | cons hbound hlevel _ => exact ⟨hbound, by simpa using hlevel⟩
  | cons q ps ih =>
      cases h with
      | cons _ hlevel h =>
          obtain ⟨hbound, hbehind⟩ := ih h
          refine ⟨hbound, ?_⟩
          simp only [List.map_cons, List.sum_cons]
          omega

end Nested

mutual

/-- The pieces of a value are nested in what is open in front of it, and nothing more is open behind
them. -/
theorem nested_pieces (bound : Nat) (slot : Slot) (depth : Nat) (v : Value)
    (h : depth + v.nesting ≤ bound) : Nested bound depth (v.pieces slot depth) depth := by
  have hdepth : depth ≤ bound := by omega
  cases v with
  | array vs =>
      cases vs with
      | nil =>
          rw [pieces]
          exact .cons hdepth rfl (.cons hdepth rfl .nil)
      | cons v vs =>
          simp only [nesting, elementsNesting] at h
          have hv := nested_pieces bound .edge (depth + 1) v (by omega)
          have hvs := nested_elementPieces bound (depth + 1) vs (by omega)
          have hclose : Nested bound (depth + 1) [⟨.edge, depth, .arrayClose⟩] depth :=
            .cons hdepth rfl .nil
          rw [pieces]
          exact .cons hdepth rfl (hv.append (hvs.append hclose))
  | object ms =>
      cases ms with
      | nil =>
          rw [pieces]
          exact .cons hdepth rfl (.cons hdepth rfl .nil)
      | cons m ms =>
          obtain ⟨key, v⟩ := m
          simp only [nesting, membersNesting] at h
          have hinside : depth + 1 ≤ bound := by omega
          have hv := nested_pieces bound .value (depth + 1) v (by omega)
          have hms := nested_memberPieces bound (depth + 1) ms (by omega)
          have hclose : Nested bound (depth + 1) [⟨.edge, depth, .objectClose⟩] depth :=
            .cons hdepth rfl .nil
          rw [pieces]
          exact .cons hdepth rfl (.cons hinside rfl (.cons hinside rfl
            (hv.append (hms.append hclose))))
  | number n =>
      rw [pieces]
      exact .singleton hdepth rfl (Sign.counts_number n)
  | _ =>
      rw [pieces]
      exact .singleton hdepth rfl ⟨rfl, rfl⟩

theorem nested_elementPieces (bound depth : Nat) (vs : List Value)
    (h : depth + elementsNesting vs ≤ bound) :
    Nested bound depth (elementPieces depth vs) depth := by
  have hdepth : depth ≤ bound := by omega
  cases vs with
  | nil => exact .nil
  | cons v vs =>
      simp only [elementsNesting] at h
      have hv := nested_pieces bound .element depth v (by omega)
      have hvs := nested_elementPieces bound depth vs (by omega)
      rw [elementPieces]
      exact .cons hdepth rfl (hv.append hvs)

theorem nested_memberPieces (bound depth : Nat) (ms : List (String × Value))
    (h : depth + membersNesting ms ≤ bound) :
    Nested bound depth (memberPieces depth ms) depth := by
  have hdepth : depth ≤ bound := by omega
  cases ms with
  | nil => exact .nil
  | cons m ms =>
      obtain ⟨key, v⟩ := m
      simp only [membersNesting] at h
      have hv := nested_pieces bound .value depth v (by omega)
      have hms := nested_memberPieces bound depth ms (by omega)
      rw [memberPieces]
      exact .cons hdepth rfl (.cons hdepth rfl (.cons hdepth rfl (hv.append hms)))

end

/-! ## Line feeds -/

/-- Where a text that is made of pieces has some character, one of the pieces has it. -/
theorem exists_of_flatMap_eq {α : Type} {f : α → List Char} {as : List α} {c : Char}
    {before behind : List Char} (h : as.flatMap f = before ++ c :: behind) :
    ∃ front a back left right, as = front ++ a :: back ∧ f a = left ++ c :: right
      ∧ before = front.flatMap f ++ left ∧ behind = right ++ back.flatMap f := by
  induction as generalizing before with
  | nil => simp at h
  | cons a as ih =>
      rw [List.flatMap_cons] at h
      rcases List.append_eq_append_iff.mp h with ⟨more, hbefore, hrest⟩ | ⟨more, ha, hrest⟩
      · obtain ⟨front, b, back, left, right, rfl, hb, rfl, hbehind⟩ := ih hrest
        refine ⟨a :: front, b, back, left, right, rfl, hb, ?_, hbehind⟩
        rw [hbefore, List.flatMap_cons, List.append_assoc]
      · rcases List.cons_eq_append_iff.mp hrest with ⟨rfl, htail⟩ | ⟨right, rfl, hbehind⟩
        · have hbegin : as.flatMap f = [] ++ c :: behind := htail
          obtain ⟨front, b, back, left, right, rfl, hb, hnil, hbehind⟩ := ih hbegin
          refine ⟨a :: front, b, back, left, right, rfl, hb, ?_, hbehind⟩
          rw [List.flatMap_cons, List.append_assoc, ← hnil, ha, List.append_nil, List.append_nil]
        · exact ⟨[], a, as, before, right, rfl, ha, rfl, hbehind⟩

variable {l : Layout}

/-- A sign holds no line feed. -/
theorem newline_notMem_signText (l : Layout) (s : Sign) : '\n' ∉ l.signText s := by
  intro hmem
  rw [← signText_tight] at hmem
  rcases printsAll_signText s _ hmem with ⟨hlow, -⟩ | ⟨-, hbreaks⟩
  · exact absurd hlow (by decide)
  · cases hbreaks

theorem newline_notMem_indented (l : Layout) (width : Nat) (s : Sign) :
    '\n' ∉ List.replicate width ' ' ++ l.signText s := by
  intro hmem
  rcases List.mem_append.mp hmem with hspace | hsign
  · exact absurd (List.eq_of_mem_replicate hspace) (by decide)
  · exact newline_notMem_signText l s hsign

/-- A piece with a line feed is a line break with its indentation and a sign. -/
theorem eq_of_pieceText {p : Piece} {before behind : List Char}
    (h : l.pieceText p = before ++ '\n' :: behind) :
    before = [] ∧ behind
      = List.replicate (p.depth * l.indent % 0x10000000000000000) ' ' ++ l.signText p.sign := by
  have hmem : ∀ more, '\n' ∈ more ++ '\n' :: behind :=
    fun more => List.mem_append_right more List.mem_cons_self
  rw [pieceText] at h
  rcases slotText_cases l p.depth p.slot with ⟨hslot, -⟩ | hslot
  · rw [hslot, newline, List.cons_append] at h
    rcases List.cons_eq_append_iff.mp h with ⟨hbefore, hbehind⟩ | ⟨more, -, hmore⟩
    · exact ⟨hbefore, (List.cons.inj hbehind).2⟩
    · exact absurd (hmore ▸ hmem more) (newline_notMem_indented l _ p.sign)
  · rcases List.mem_append.mp (h ▸ hmem before) with hspace | hsign
    · exact absurd hspace hslot
    · exact absurd hsign (newline_notMem_signText l p.sign)

/-- Brackets are counted by the signs. -/
theorem counts_flatMap_pieceText (l : Layout) (ps : List Piece) :
    opened (ps.flatMap l.pieceText) = (ps.map fun p => p.sign.opened).sum
    ∧ closed (ps.flatMap l.pieceText) = (ps.map fun p => p.sign.closed).sum := by
  rw [opened, closed, outerCount_flatMap l.endsOutside_pieceText,
    outerCount_flatMap l.endsOutside_pieceText]
  have hcounts := counts_pieceText l
  exact ⟨congrArg List.sum (List.map_congr_left fun p _ => (hcounts p).1),
    congrArg List.sum (List.map_congr_left fun p _ => (hcounts p).2)⟩

/-- Line breaks stand outside of string literals, and each is followed by the indentation of what
comes behind it. -/
theorem continuesLine_of_valueText {v : Value} {before behind : List Char}
    (h : v.nesting * l.indent < 0x10000000000000000)
    (htext : l.valueText 0 v = before ++ '\n' :: behind) :
    EndsOutside before ∧ ContinuesLine l.indent before behind := by
  -- the line feed begins one of the pieces, so that whole pieces stand in front of it
  rw [valueText_eq_flatMap] at htext
  obtain ⟨front, p, back, left, right, hpieces, hp, rfl, rfl⟩ := exists_of_flatMap_eq htext
  obtain ⟨rfl, rfl⟩ := eq_of_pieceText hp
  rw [List.append_nil]
  have hnested := nested_pieces v.nesting .tight 0 v (Nat.le_of_eq (Nat.zero_add _))
  rw [hpieces] at hnested
  obtain ⟨hdepth, hlevel⟩ := hnested.level_eq
  obtain ⟨c, cs, hsign, hblank, hclosing⟩ := l.exists_signText_cons p.sign
  simp only [List.mem_cons, List.not_mem_nil, or_false, not_or] at hblank
  have hwidth : p.depth * l.indent % 0x10000000000000000 = l.indent * p.depth := by
    rw [Nat.mod_eq_of_lt (Nat.lt_of_le_of_lt (Nat.mul_le_mul_right l.indent hdepth) h),
      Nat.mul_comm]
  obtain ⟨hopened, hclosed⟩ := counts_flatMap_pieceText l front
  refine ⟨endsOutside_flatMap l.endsOutside_pieceText front, p.depth, c,
    cs ++ back.flatMap l.pieceText, ?_, hblank.1, hblank.2, ?_⟩
  · rw [hwidth, hsign, List.append_assoc, List.cons_append]
  · calc opened (front.flatMap l.pieceText)
        = closed (front.flatMap l.pieceText) + p.depth + p.sign.closed := by
          rw [hopened, hclosed]
          omega
      _ = _ := by rw [hclosing, Sign.closed]

end Layout

namespace Value

open Text Layout

/-- **Lines are indented by the brackets that are open.** Printed text has no control characters but
line feeds, and without line breaks in the layout not even these. Line feeds stand outside of string
literals, and behind each of them come as many widths of spaces as brackets are open, without the
one that is closed next, and then another character. -/
theorem print_lines (v : Value) (l : Layout) (h : v.nesting * l.indent < 0x10000000000000000) :
    (∀ c ∈ (v.print l).toList, (' ' ≤ c ∧ c ≠ '\x7f') ∨ c = '\n')
    ∧ (l.breaksLines = false → '\n' ∉ (v.print l).toList)
    ∧ ∀ before behind, (v.print l).toList = before ++ '\n' :: behind →
      EndsOutside before ∧ ContinuesLine l.indent before behind := by
  have htext : (v.print l).toList = l.valueText 0 v := String.toList_ofList
  refine ⟨?_, fun hbreaks => newline_notMem_print hbreaks v, ?_⟩
  · intro c hc
    rw [htext] at hc
    rcases printsAll_valueText l 0 v c hc with ⟨hlow, hdelete, -⟩ | ⟨hfeed, -⟩
    · exact .inl ⟨hlow, hdelete⟩
    · exact .inr hfeed
  · intro before behind hsplit
    rw [htext] at hsplit
    exact continuesLine_of_valueText h hsplit

/-- A value with a bracket and a line feed in a string. -/
def bracketInString : Value := .array [.string "]\n", .object [("k", .bool true)]]

/-- The bracket in the string closes nothing, so that one is open in front of the object. -/
theorem print_lines_bracketInString :
    bracketInString.nesting * Layout.pretty.indent < 0x10000000000000000
    ∧ EndsOutside "[\n  \"]\\n\",".toList
    ∧ ContinuesLine 2 "[\n  \"]\\n\",".toList
      "  \x7b\n    \"k\": true\n  \x7d\n]".toList := by
  have hwidth : bracketInString.nesting * Layout.pretty.indent < 0x10000000000000000 := by decide
  exact ⟨hwidth, (print_lines bracketInString .pretty hwidth).2.2 _ _ rfl⟩

end Value

end JsonAxes
