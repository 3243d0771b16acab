import JsonAxes.Proofs.Text.Runs
import JsonAxes.Proofs.Token.Cutting

/-!
# White space and comments

What is skipped first in a text, by what the text begins with: white space, a number sign, two
slashes, a slash and a star. A text that begins with anything else begins with no gap.

A whole comment is skipped wherever it may stand (`Token.IsComment.skipTrivia`), and whatever is
skipped first is white space or a whole comment (`Token.eq_of_first`).
-/

set_option autoImplicit false

namespace JsonAxes.Token

/-! ## Block comments -/

theorem blockComment?_cons {c : Char} {rest : List Char}
    (h : ∀ after, c = '*' → rest ≠ '/' :: after) :
    blockComment? (c :: rest) = (blockComment? rest).map fun p => (c :: p.1, p.2) := by
  rw [blockComment?]
  intro after hc hrest
  exact h after hc hrest

theorem blockComment?_append {front : List Char} (h : '*' ∉ front) (rest : List Char) :
    blockComment? (front ++ rest)
      = (blockComment? rest).map fun p => (front ++ p.1, p.2) := by
  induction front with
  | nil => simp
  | cons c front ih =>
      have hc : ∀ after, c = '*' → front ++ rest ≠ '/' :: after := by
        rintro after rfl
        exact absurd List.mem_cons_self h
      rw [List.cons_append, blockComment?_cons hc, ih fun hmem => h (List.mem_cons_of_mem c hmem),
        Option.map_map]
      rfl

/-! ## What is skipped first -/

theorem first_of_isBlank {c : Char} (hc : isBlank c = true) (rest : List Char) :
    Gap.first (c :: rest) = .piece [c] rest := if_pos hc

theorem first_hash (rest : List Char) : Gap.first ('#' :: rest) = .line ('#' :: rest) := rfl

theorem first_slashes (rest : List Char) :
    Gap.first ('/' :: '/' :: rest) = .line ('/' :: '/' :: rest) := rfl

theorem first_opening (body : List Char) :
    Gap.first ('/' :: '*' :: body) = match blockComment? body with
      | some (inside, after) => .piece ('/' :: '*' :: inside ++ ['*', '/']) after
      | none => .unclosed := rfl

/-- A slash that no comment begins with. -/
theorem first_slash {rest : List Char} (hslash : ∀ more, rest ≠ '/' :: more)
    (hstar : ∀ body, rest ≠ '*' :: body) : Gap.first ('/' :: rest) = .empty := by
  unfold Gap.first
  dsimp only
  rw [if_neg (by decide), if_neg (by decide), if_pos rfl]
  split
  · next more => exact absurd rfl (hslash more)
  · next body => exact absurd rfl (hstar body)
  · rfl

theorem first_of_isSolid {c : Char} (hc : IsSolid c) (rest : List Char) :
    Gap.first (c :: rest) = .empty := by
  obtain ⟨hblank, hhash, hslash⟩ := hc
  have hblank : ¬ isBlank c = true := Bool.eq_false_iff.mp hblank
  exact (if_neg hblank).trans ((if_neg hhash).trans (if_neg hslash))

theorem skipTrivia_of_unclosed {cs : List Char} (h : Gap.first cs = .unclosed) (offset : Nat) :
    skipTrivia offset cs
      = .error (.unterminatedComment ⟨offset, offset + Text.utf8Length cs⟩) := by
  rw [skipTrivia]
  split
  · next h' =>
    rw [h] at h'
    cases h'
  · next h' =>
    rw [h] at h'
    cases h'
  · rfl

/-! ## What is skipped in front of a token -/

theorem first_of_skipTrivia {offset offset' : Nat} {cs rest : List Char}
    (h : skipTrivia offset cs = .ok (offset', rest)) : Gap.first rest = .empty := by
  fun_induction skipTrivia offset cs with
  | case1 offset cs hfirst =>
      cases h
      exact hfirst
  | case2 offset cs skipped rest' hfirst _ ih => exact ih h
  | case3 => cases h

/-- What is skipped does not depend on where the text stands. -/
theorem exists_skipTrivia_of_skipTrivia {offset offset' : Nat} {cs rest : List Char}
    (h : skipTrivia offset cs = .ok (offset', rest)) (start : Nat) :
    ∃ start', skipTrivia start cs = .ok (start', rest) := by
  fun_induction skipTrivia offset cs generalizing start with
  | case1 offset cs hfirst =>
      cases h
      exact ⟨start, skipTrivia_of_empty hfirst start⟩
  | case2 offset cs skipped rest' hfirst _ ih =>
      rw [skipTrivia_of_piece hfirst]
      exact ih h _
  | case3 => cases h

/-- A block comment may have anything inside but its own end. -/
theorem blockComment?_of_not_isInfix {inside : List Char} (h : ¬ ['*', '/'] <:+: inside)
    (rest : List Char) : blockComment? (inside ++ '*' :: '/' :: rest) = some (inside, rest) := by
  induction inside with
  | nil => rfl
  | cons c inside ih =>
      have hrest : ¬ ['*', '/'] <:+: inside := by
        intro hwithin
        exact h (hwithin.trans (List.suffix_cons c _).isInfix)
      have hc : ∀ after, c = '*' → inside ++ '*' :: '/' :: rest ≠ '/' :: after := by
        rintro after rfl heq
        cases inside with
        | nil => cases heq
        | cons d inside =>
            cases heq
            exact h ⟨[], inside, rfl⟩
      rw [List.cons_append, blockComment?_cons hc, ih hrest]
      rfl

theorem not_isInfix_of_blockComment? {cs inside after : List Char}
    (h : blockComment? cs = some (inside, after)) : ¬ ['*', '/'] <:+: inside := by
  induction cs generalizing inside with
  | nil => cases h
  | cons c cs ih =>
      unfold blockComment? at h
      split at h
      · cases h
        rintro ⟨as, bs, heq⟩
        simp at heq
      · next hends =>
        obtain ⟨⟨inside', after'⟩, hrest, heq⟩ := Option.map_eq_some_iff.mp h
        cases heq
        rw [List.infix_cons_iff]
        rintro (hfirst | hwithin)
        · obtain ⟨after'', heq⟩ := hfirst
          obtain ⟨hc, hinside⟩ := List.cons.inj heq
          have happend := append_of_blockComment? hrest
          rw [← hinside] at happend
          exact hends _ hc.symm happend.symm
        · exact ih hrest hwithin

/-- A line comment, without the line feed that it ends before. -/
structure IsLine (line : List Char) : Prop where
  noBreak : '\n' ∉ line
  marker : (∃ more, line = '#' :: more) ∨ ∃ more, line = '/' :: '/' :: more

/-- The whole comments that can stand in front of a text: block comments, line comments with the
line feed that ends them, and line comments that end where the text does or its line. -/
inductive IsComment : List Char → List Char → Prop where
  | block {inside : List Char} (h : ¬ ['*', '/'] <:+: inside) (rest : List Char) :
      IsComment ('/' :: '*' :: (inside ++ ['*', '/'])) rest
  | line {line : List Char} (h : IsLine line) (rest : List Char) : IsComment (line ++ ['\n']) rest
  | lastLine {line rest : List Char} (h : IsLine line) (hrest : ∀ c ∈ rest.head?, c = '\n') :
      IsComment line rest

theorem isSkipped_of_block {inside : List Char} (h : ¬ ['*', '/'] <:+: inside) :
    IsSkipped ('/' :: '*' :: (inside ++ ['*', '/'])) := by
  intro offset rest
  apply skipTrivia_of_piece
  have hbody : ('/' :: '*' :: (inside ++ ['*', '/'])) ++ rest
      = '/' :: '*' :: (inside ++ '*' :: '/' :: rest) := by simp
  rw [hbody, first_opening, blockComment?_of_not_isInfix h]
  rfl

/-- A line comment is skipped where a line feed or the end of the text follows. -/
theorem IsLine.skipTrivia {line rest : List Char} (h : IsLine line)
    (hrest : ∀ c ∈ rest.head?, c = '\n') (offset : Nat) :
    skipTrivia offset (line ++ rest) = skipTrivia (offset + Text.utf8Length line) rest := by
  have hinside : ∀ c ∈ line, (c != '\n') = true := by
    intro c hc
    rw [bne_iff_ne]
    rintro rfl
    exact h.noBreak hc
  have hends : ∀ c ∈ rest.head?, (c != '\n') = false := by
    intro c hc
    rw [hrest c hc]
    rfl
  have hfirst : Gap.first (line ++ rest) = Gap.line (line ++ rest) := by
    rcases h.marker with ⟨more, rfl⟩ | ⟨more, rfl⟩
    · exact first_hash _
    · exact first_slashes _
  apply skipTrivia_of_piece
  rw [hfirst, Gap.line, Text.takeWhile_append hinside hends, Text.dropWhile_append hinside hends]

/-- A line comment and then a gap that begins with a line feed make up a gap. -/
theorem IsLine.isSkipped_append {line gap : List Char} (h : IsLine line)
    (hgap : IsSkipped ('\n' :: gap)) : IsSkipped (line ++ '\n' :: gap) := by
  intro offset rest
  have hbreak : ∀ c ∈ ('\n' :: gap ++ rest).head?, c = '\n' := by
    rintro c ⟨⟩
    rfl
  rw [List.append_assoc, h.skipTrivia hbreak, hgap, Text.utf8Length_append, Nat.add_assoc]

/-- A comment is skipped in front of the text that it can stand in front of. -/
theorem IsComment.skipTrivia {comment rest : List Char} (h : IsComment comment rest)
    (offset : Nat) :
    skipTrivia offset (comment ++ rest)
      = skipTrivia (offset + Text.utf8Length comment) rest := by
  cases h with
  | block h => exact isSkipped_of_block h offset rest
  | line h => exact h.isSkipped_append (isSkipped_blank rfl) offset rest
  | lastLine h hrest => exact h.skipTrivia hrest offset

/-- A comment begins with a mark that is no part of a numeral. -/
theorem IsLine.endsNumeral_append {line : List Char} (h : IsLine line) (rest : List Char) :
    EndsNumeral (line ++ rest) := by
  rcases h.marker with ⟨more, rfl⟩ | ⟨more, rfl⟩
  · exact endsNumeral_cons (by decide) _
  · exact endsNumeral_cons (by decide) _

theorem IsComment.endsNumeral_append {comment rest : List Char} (h : IsComment comment rest) :
    EndsNumeral (comment ++ rest) := by
  cases h with
  | block h => exact endsNumeral_cons (by decide) _
  | line h =>
      rw [List.append_assoc]
      exact h.endsNumeral_append _
  | lastLine h _ => exact h.endsNumeral_append _

/-- The three kinds of gaps. -/
theorem eq_of_first {cs skipped rest : List Char} (h : Gap.first cs = .piece skipped rest) :
    (∃ b, isBlank b = true ∧ skipped = [b])
    ∨ (∃ inside, ¬ ['*', '/'] <:+: inside ∧ skipped = '/' :: '*' :: (inside ++ ['*', '/']))
    ∨ IsLine skipped ∧ ∀ c ∈ rest.head?, c = '\n' := by
  -- either mark of a line comment leads to the same run
  have hline : ∀ {cs : List Char}, Gap.line cs = .piece skipped rest →
      '\n' ∉ skipped ∧ ∀ c ∈ rest.head?, c = '\n' := by
    rintro cs ⟨⟩
    constructor
    · intro hmem
      have hbreak := List.all_eq_true.mp List.all_takeWhile '\n' hmem
      exact absurd hbreak (by decide)
    · intro c hc
      have hnot := List.head?_dropWhile_not (· != '\n') cs
      rw [hc] at hnot
      simpa using hnot
  unfold Gap.first at h
  split at h
  · cases h
  · next c cs =>
    split at h
    · next hblank =>
      cases h
      exact .inl ⟨c, hblank, rfl⟩
    · split at h
      · next hc =>
        rw [hc] at h
        obtain ⟨hbreak, hrest⟩ := hline h
        cases h
        exact .inr (.inr ⟨⟨hbreak, .inl ⟨_, rfl⟩⟩, hrest⟩)
      · split at h
        · next hc =>
          split at h
          · rw [hc] at h
            obtain ⟨hbreak, hrest⟩ := hline h
            cases h
            exact .inr (.inr ⟨⟨hbreak, .inr ⟨_, rfl⟩⟩, hrest⟩)
          · split at h
            · next hblock =>
              cases h
              exact .inr (.inl ⟨_, not_isInfix_of_blockComment? hblock, rfl⟩)
            · cases h
          · cases h
        · cases h

end JsonAxes.Token
