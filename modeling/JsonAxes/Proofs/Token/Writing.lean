import JsonAxes.Proofs.Token.Gap
import JsonAxes.Proofs.Token.Laid
import JsonAxes.Proofs.Token.Lexeme
import Mathlib.Data.List.Chain

/-!
# Lexing what is written

Lexemes may be written one behind another with any gaps in front of them, between them and behind
them, and the lexer gives the same lexemes back, whatever the gaps (`Lexer.exists_drain_written`). A
gap is needed only between two numbers of which the second begins with a digit (`Spaced.Apart`).
-/

set_option autoImplicit false

namespace JsonAxes

open Token

/-- A lexeme with a gap in front of it. -/
structure Spaced where
  gap : List Char
  lexeme : Lexeme
  isGap : IsGap false gap

namespace Spaced

/-- How a lexeme stands in a text, behind its gap. -/
def written (s : Spaced) : List Char := s.gap ++ s.lexeme.written

/-- Whether two lexemes, one behind the other, are not read as one: where both are numbers and there
is no gap, the second does not begin with a digit. -/
def Apart (r s : Spaced) : Prop :=
  r.lexeme.kind = .number → s.lexeme.kind = .number → s.gap = [] →
    ∀ c ∈ s.lexeme.written.head?, c.isDigit = false

variable {r s : Spaced}

/-- What is written behind a number does not read as a part of it. -/
theorem Apart.endsNumeral (h : Apart r s) (hr : r.lexeme.kind = .number) :
    EndsNumeral s.written := by
  unfold written
  cases hgap : s.gap with
  | nil =>
      rw [List.nil_append]
      exact Lexeme.endsNumeral_written fun hs => h hr hs hgap
  | cons c gap =>
      intro d hd
      have hends : EndsNumeral (c :: gap) := hgap ▸ s.isGap.endsNumeral
      exact hends d hd

end Spaced

namespace Lexer

variable {ss : List Spaced} {last : List Char}

/-- The lexemes of what is written are cut off one by one, and nothing else is. -/
theorem exists_drain_written (hss : ss.IsChain Spaced.Apart) (hlast : IsGap true last)
    (offset : Nat) : ∃ ts l, drain ⟨offset, ss.flatMap Spaced.written ++ last⟩ = ⟨ts, none, l⟩
      ∧ ts.map (fun t => (t.kind, t.text))
        = ss.map fun s => (s.lexeme.kind, String.ofList s.lexeme.text) := by
  induction ss generalizing offset with
  | nil =>
      have hskip : skipTrivia offset (last ++ []) = .ok (offset + Text.utf8Length last, []) := by
        rw [hlast.skipTrivia (fun _ => rfl), skipTrivia_nil]
      rw [List.append_nil] at hskip
      exact ⟨[], _, drain_of_none (next_of_skipTrivia_nil hskip), rfl⟩
  | cons s ss ih =>
      have hbehind : s.lexeme.kind = .number →
          EndsNumeral (ss.flatMap Spaced.written ++ last) := by
        intro hnumber
        cases ss with
        | nil => exact hlast.endsNumeral
        | cons u ss =>
            have hapart : s.Apart u := hss.rel_head? rfl
            rw [List.flatMap_cons, List.append_assoc]
            intro c hc
            apply hapart.endsNumeral hnumber c
            have hne : u.written ≠ [] := by
              simp [Spaced.written, u.lexeme.written_ne_nil]
            rwa [List.head?_append_of_ne_nil _ hne] at hc
      obtain ⟨_, offset', ⟨span, rfl⟩, hcuts⟩ :=
        s.lexeme.cutsInto hbehind (offset + Text.utf8Length s.gap)
      obtain ⟨ts, l, hdrain, hts⟩ := ih hss.tail offset'
      have hfront := drain_of_cuts hcuts
      rw [hdrain] at hfront
      have hgap := s.isGap.isSkipped offset (s.lexeme.written
        ++ (ss.flatMap Spaced.written ++ last))
      refine ⟨⟨s.lexeme.kind, String.ofList s.lexeme.text, span⟩ :: ts, l, ?_, ?_⟩
      · rw [List.flatMap_cons, Spaced.written, List.append_assoc, List.append_assoc]
        exact drain_of_skipTrivia hgap hfront
      · rw [List.map_cons, List.map_cons, hts]

end Lexer

/-- **Lexing undoes writing tokens out.** Lexemes with gaps in front of them and a gap behind the
last are cut into tokens of just these kinds and texts. -/
theorem Token.lex_written (ss : List Spaced) (last : List Char) (hss : ss.IsChain Spaced.Apart)
    (hlast : IsGap true last) :
    ∃ ts, Token.lex (String.ofList (ss.flatMap Spaced.written ++ last)) = .ok ts
      ∧ ts.map (fun t => (t.kind, t.text))
        = ss.map fun s => (s.lexeme.kind, String.ofList s.lexeme.text) := by
  obtain ⟨ts, l, hdrain, hts⟩ := Lexer.exists_drain_written hss hlast 0
  refine ⟨ts, ?_, hts⟩
  rw [Token.lex, Lexer.ofText, String.toList_ofList, hdrain]

/-- Without gaps, signs and words are enough to tell tokens apart; a comment may hold a quote, and a
string literal may hold what opens a comment. -/
theorem Token.lex_written_adjacent :
    ∃ ts, Token.lex "1-2truefalse/*\"*/\"//\"\"#\"# no more" = .ok ts
      ∧ ts.map (fun t => (t.kind, t.text)) = [(.number, "1"), (.number, "-2"), (.bool, "true"),
        (.bool, "false"), (.string, "//"), (.string, "#")] := by
  have hsingle : ∀ c : Char, c ≠ '"' → c ≠ '\\' → IsBody [c] :=
    fun c hquote hslash => .plain hquote hslash .nil
  have hslashes : IsBody "//".toList :=
    .plain (by decide) (by decide) (hsingle '/' (by decide) (by decide))
  have hcomment : IsGap false "/*\"*/".toList := @IsGap.block false ['"'] [] (by decide) .nil
  have hlast : IsGap true "# no more".toList := .lastLine ⟨by decide, .inl ⟨_, rfl⟩⟩ rfl
  refine lex_written
    [⟨[], .number ⟨false, ⟨['1'], nofun, List.forall_mem_singleton.mpr rfl⟩, none, none⟩, .nil⟩,
      ⟨[], .number ⟨true, ⟨['2'], nofun, List.forall_mem_singleton.mpr rfl⟩, none, none⟩, .nil⟩,
      ⟨[], .bool true, .nil⟩, ⟨[], .bool false, .nil⟩, ⟨_, .string _ hslashes, hcomment⟩,
      ⟨[], .string _ (hsingle '#' (by decide) (by decide)), .nil⟩] _ ?_ hlast
  -- only the first two are both numbers, and the second begins with its sign
  have hsign : ∀ c ∈ ['-', '2'].head?, c.isDigit = false := by
    rintro c ⟨⟩
    rfl
  exact .cons_cons (fun _ _ _ => hsign) (.cons_cons nofun (.cons_cons nofun
    (.cons_cons nofun (.cons_cons nofun (.singleton _)))))

end JsonAxes
