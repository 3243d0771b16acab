import JsonAxes.Proofs.Text.Escapable
import JsonAxes.Proofs.Token.Comment

/-!
# The gaps between tokens

What stands between tokens is white space and whole comments, one after another (`Token.IsGap`). A
line comment goes up to the line feed that ends it; only at the end of the text may it do without.
The lexer skips a gap to its exact end (`Token.IsGap.skipTrivia`), and what it skips is a gap
(`Token.exists_isGap_of_skipTrivia`).
-/

set_option autoImplicit false

namespace JsonAxes.Token

/-- White space and whole comments; `atEnd` says whether the text ends behind them. -/
inductive IsGap (atEnd : Bool) : List Char → Prop where
  | nil : IsGap atEnd []
  | blank {c : Char} {gap : List Char} (hc : isBlank c = true) (h : IsGap atEnd gap) :
      IsGap atEnd (c :: gap)
  | block {inside gap : List Char} (hinside : ¬ ['*', '/'] <:+: inside) (h : IsGap atEnd gap) :
      IsGap atEnd (('/' :: '*' :: (inside ++ ['*', '/'])) ++ gap)
  | line {line gap : List Char} (hline : IsLine line) (h : IsGap atEnd gap) :
      IsGap atEnd (line ++ '\n' :: gap)
  /-- A line comment that the end of the text ends. -/
  | lastLine {line : List Char} (hline : IsLine line) (hend : atEnd = true) : IsGap atEnd line

namespace IsGap

variable {atEnd : Bool} {gap : List Char}

/-- A line feed in front of a gap is a part of it. -/
theorem of_newline (h : IsGap atEnd ('\n' :: gap)) : IsGap atEnd gap := by
  have hline : ∀ line more : List Char, IsLine line → '\n' :: gap ≠ line ++ more := by
    intro line more hline heq
    rcases hline.marker with ⟨rest, rfl⟩ | ⟨rest, rfl⟩
    · exact absurd (List.cons.inj heq).1 (by decide)
    · exact absurd (List.cons.inj heq).1 (by decide)
  generalize hcs : '\n' :: gap = cs at h
  cases h with
  | nil => cases hcs
  | blank _ h =>
      rw [(List.cons.inj hcs).2]
      exact h
  | block => exact absurd (List.cons.inj hcs).1 (by decide)
  | line h _ => exact absurd hcs (hline _ _ h)
  | lastLine h _ => exact absurd (hcs.trans (List.append_nil _).symm) (hline _ _ h)

/-- A gap begins with no part of a numeral. -/
theorem endsNumeral (h : IsGap atEnd gap) : EndsNumeral gap := by
  cases h with
  | nil => exact endsNumeral_nil
  | blank hc _ =>
      apply endsNumeral_cons
      simp only [isBlank, Bool.or_eq_true, beq_iff_eq] at hc
      rcases hc with (((((rfl | rfl) | rfl) | rfl) | rfl) | rfl) | rfl <;> decide
  | block _ _ => exact endsNumeral_cons (by decide) _
  | line hline _ => exact hline.endsNumeral_append _
  | lastLine hline _ =>
      rw [← List.append_nil gap]
      exact hline.endsNumeral_append []

/-- A gap is skipped up to its end, where a token may begin or the text end. -/
theorem skipTrivia (h : IsGap atEnd gap) {rest : List Char} (hrest : atEnd = true → rest = [])
    (offset : Nat) :
    skipTrivia offset (gap ++ rest) = skipTrivia (offset + Text.utf8Length gap) rest := by
  induction h generalizing offset with
  | nil => rfl
  | @blank c gap hc _ ih =>
      calc Token.skipTrivia offset ((c :: gap) ++ rest)
          = Token.skipTrivia (offset + Text.utf8Length [c]) (gap ++ rest) :=
            isSkipped_blank hc offset (gap ++ rest)
        _ = Token.skipTrivia (offset + Text.utf8Length [c] + Text.utf8Length gap) rest := ih _
        _ = Token.skipTrivia (offset + Text.utf8Length (c :: gap)) rest := by
            rw [Nat.add_assoc, ← Text.utf8Length_append, List.singleton_append]
  | block hinside _ ih =>
      rw [List.append_assoc, isSkipped_of_block hinside, ih, Text.utf8Length_append, Nat.add_assoc]
  | @line line gap hline _ ih =>
      have hbreak : ∀ c ∈ ('\n' :: (gap ++ rest)).head?, c = '\n' := by
        intro c hc
        exact (Option.some.inj hc).symm
      calc Token.skipTrivia offset ((line ++ '\n' :: gap) ++ rest)
          = Token.skipTrivia (offset + Text.utf8Length line) ('\n' :: (gap ++ rest)) := by
            rw [List.append_assoc]
            exact hline.skipTrivia hbreak offset
        _ = Token.skipTrivia (offset + Text.utf8Length line + Text.utf8Length ['\n'])
              (gap ++ rest) := isSkipped_blank rfl _ _
        _ = Token.skipTrivia (offset + Text.utf8Length (line ++ '\n' :: gap)) rest := by
            rw [ih, Text.utf8Length_append, Text.utf8Length_cons, Text.utf8Length_cons,
              Text.utf8Length_nil]
            congr 1
            omega
  | lastLine hline hend =>
      rw [hrest hend]
      apply hline.skipTrivia
      intro c hc
      cases hc

/-- A gap in front of a token is skipped in front of anything else. -/
theorem isSkipped (h : IsGap false gap) : IsSkipped gap := fun offset _ => h.skipTrivia nofun offset

/-- Behind a gap no escape is begun. -/
theorem begun (h : IsGap false gap) : Canonical.begun false gap = false := by
  induction h with
  | nil => rfl
  | @blank c gap hc _ ih =>
      have hfront : Canonical.begun false [c] = false := by
        apply Canonical.begun_concat false []
        rintro rfl
        cases hc
      exact Canonical.begun_append_of_not hfront ih
  | @block inside gap _ _ ih =>
      apply Canonical.begun_append_of_not ?_ ih
      rw [← List.cons_append, ← List.cons_append, List.append_cons]
      exact Canonical.begun_concat false _ (by decide)
  | @line line gap _ _ ih =>
      rw [List.append_cons]
      exact Canonical.begun_append_of_not (Canonical.begun_concat false line (by decide)) ih
  | lastLine _ hend => cases hend

end IsGap

/-- What is skipped is a gap. -/
theorem exists_isGap_of_skipTrivia {offset offset' : Nat} {cs rest : List Char}
    (h : skipTrivia offset cs = .ok (offset', rest)) :
    ∃ gap, cs = gap ++ rest ∧ IsGap rest.isEmpty gap
      ∧ offset' = offset + Text.utf8Length gap := by
  fun_induction skipTrivia offset cs with
  | case1 offset cs hfirst =>
      cases h
      exact ⟨[], rfl, .nil, rfl⟩
  | case2 offset cs skipped behind hfirst _ ih =>
      obtain ⟨gap, rfl, hgap, hoffset⟩ := ih h
      obtain ⟨happend, -⟩ := Gap.append_of_first hfirst
      have hskipped : IsGap rest.isEmpty (skipped ++ gap) := by
        rcases eq_of_first hfirst with ⟨b, hb, rfl⟩ | ⟨inside, hinside, rfl⟩ | ⟨hline, hbreak⟩
        · exact .blank hb hgap
        · exact .block hinside hgap
        · -- behind a line comment there is a line feed to be skipped, or nothing at all
          cases gap with
          | nil =>
              cases rest with
              | nil =>
                  rw [List.append_nil]
                  exact .lastLine hline rfl
              | cons c rest =>
                  have hc : c = '\n' := hbreak c rfl
                  have hfirst := first_of_skipTrivia h
                  rw [hc] at hfirst
                  cases hfirst
          | cons c gap =>
              have hc : c = '\n' := hbreak c rfl
              rw [hc] at hgap ⊢
              exact .line hline hgap.of_newline
      refine ⟨skipped ++ gap, ?_, hskipped, ?_⟩
      · rw [List.append_assoc, happend]
      · rw [hoffset, Text.utf8Length_append, Nat.add_assoc]
  | case3 => cases h

end JsonAxes.Token
