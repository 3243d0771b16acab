import JsonAxes.Proofs.Value.Canonical

/-!
# Comments in a text

A comment in front of a token or behind it makes no difference to the value of a text, whatever
quotes, brackets, backslashes or other marks of comments are in it. The one exception is owed to the
canonical form, which is taken before anything is known to be a comment: a character that has to be
escaped is refused behind a backslash that begins an escape, in a comment like anywhere else
(`Value.ofText?_comment`).
-/

set_option autoImplicit false

namespace JsonAxes

/-! ## Putting a comment into a text -/

namespace Token

open Canonical

/-- A comment ends in no backslash, or behind it stands a line feed or nothing. -/
theorem IsComment.escapable_append {comment back : List Char} (h : IsComment comment back)
    (hcomment : Escapable false comment) (hback : Escapable false back) :
    Escapable false (comment ++ back) := by
  rw [Canonical.escapable_append]
  refine ⟨hcomment, ?_⟩
  cases h with
  | @block inside h =>
      have hend : '/' :: '*' :: (inside ++ ['*', '/'])
          = ('/' :: '*' :: (inside ++ ['*'])) ++ ['/'] := by simp
      rwa [hend, begun_concat false _ (by decide)]
  | line h => rwa [begun_concat false _ (by decide)]
  | lastLine h hrest =>
      cases back with
      | nil => trivial
      | cons c back =>
          have hc : c = '\n' := hrest c rfl
          rw [hc] at hback ⊢
          exact ⟨.inl rfl, hback.tail (by decide)⟩

end Token

namespace Value

open Token Lexer

/-- A comment that can be escaped leaves the value as it is. -/
theorem ofText?_insert {limit : Nat} {front back comment : List Char}
    {ts before behind : List Token} {v : Value}
    (hescapable : Canonical.Escapable false (front ++ back))
    (h : Split front back ts before behind) (hread : ofTokens? limit ts = .ok v)
    (hcomment : IsComment comment back) (hinside : Canonical.Escapable false comment) :
    ofText? limit (String.ofList (front ++ (comment ++ back))) = .ok v := by
  rw [ofText?_eq_ok_iff, String.toList_ofList]
  constructor
  · rw [Canonical.escapable_append, h.begun] at hescapable ⊢
    exact ⟨hescapable.1, hcomment.escapable_append hinside hescapable.2⟩
  · exact ofCanonical?_of_yields (h.yields_insert hcomment) hread

/-- Any other comment is objected to. -/
theorem exists_ofText?_eq_error_of_insert {front back comment : List Char}
    (h : Canonical.begun false front = false) (hinside : ¬ Canonical.Escapable false comment)
    (limit : Nat) :
    ∃ escape span, ofText? limit (String.ofList (front ++ (comment ++ back)))
      = .error (.malformedEscape escape span) := by
  have hnot : ¬ Canonical.Escapable false (String.ofList (front ++ (comment ++ back))).toList := by
    rw [String.toList_ofList, Canonical.escapable_append, h, Canonical.escapable_append]
    rintro ⟨-, hcomment, -⟩
    exact hinside hcomment
  obtain ⟨escape, span, herror⟩ := Canonical.exists_ofText_eq_error hnot
  refine ⟨escape, span, ?_⟩
  rw [ofText?, herror]
  rfl

/-- **Comments do not count.** Where a text has a value, a whole comment can be put in front of each
of its tokens and behind each, and the value stays the same, if in the comment no character to be
escaped stands behind a backslash that begins an escape. A comment with such a character is
objected to. -/
theorem ofText?_comment {limit : Nat} {text : String} {v : Value}
    (h : ofText? limit text = .ok v) :
    ∃ ts, Token.lex text = .ok ts ∧ ∀ t ∈ ts, ∀ front back comment : List Char,
      text.toList = front ++ back →
      Text.utf8Length front = t.span.lo ∨ Text.utf8Length front = t.span.hi →
      IsComment comment back →
      (Canonical.Escapable false comment →
        ofText? limit (String.ofList (front ++ (comment ++ back))) = .ok v)
      ∧ (¬ Canonical.Escapable false comment →
        ∃ escape span, ofText? limit (String.ofList (front ++ (comment ++ back)))
          = .error (.malformedEscape escape span)) := by
  obtain ⟨hescapable, hcanonical⟩ := (ofText?_eq_ok_iff limit text v).mp h
  obtain ⟨ts, hlex, hread, hlaid⟩ := exists_laid_of_ofCanonical? hcanonical
  refine ⟨ts, hlex, ?_⟩
  intro t ht front back comment htext hpoint hcomment
  rw [htext] at hescapable
  rw [← Nat.zero_add (Text.utf8Length front)] at hpoint
  obtain ⟨before, behind, hsplit⟩ := hlaid.exists_split ht htext hpoint
  constructor
  · intro hinside
    exact ofText?_insert hescapable hsplit hread hcomment hinside
  · intro hinside
    exact exists_ofText?_eq_error_of_insert hsplit.begun hinside limit

/-- A comment with quotes, backslashes, other marks of comments and a character beyond ASCII, right
behind a number. -/
theorem ofText?_comment_behindNumber :
    ofText? 512 "[1]" = .ok (.array [.number (.ofNat 1)])
    ∧ ofText? 512 "[1/* \"\\\" \\\\é // # \x7b */]" = .ok (.array [.number (.ofNat 1)]) := by
  have hlex : Token.lex "[1]" = .ok [⟨.arrayOpen, "[", ⟨0, 1⟩⟩, ⟨.number, "1", ⟨1, 2⟩⟩,
      ⟨.arrayClose, "]", ⟨2, 3⟩⟩] := by decide +kernel
  have hread : ofText? 512 "[1]" = .ok (.array [.number (.ofNat 1)]) := by
    rw [ofText?_eq_ok_iff, ofCanonical?, hlex]
    exact ⟨by decide, rfl⟩
  have hinside : ¬ ['*', '/'] <:+: " \"\\\" \\\\é // # \x7b ".toList := by decide
  have hcomment : IsComment "/* \"\\\" \\\\é // # \x7b */".toList "]".toList :=
    .block hinside "]".toList
  obtain ⟨ts, hts, hinsert⟩ := ofText?_comment hread
  rw [hlex] at hts
  cases hts
  have hnumber := hinsert ⟨.number, "1", ⟨1, 2⟩⟩ (by decide) "[1".toList "]".toList _ rfl (.inr rfl)
    hcomment
  exact ⟨hread, hnumber.1 (by decide)⟩

/-- A whole comment in front of the only token of a text that is objected to. -/
theorem ofText?_eq_error_of_comment :
    ofText? 512 "null" = .ok .null
    ∧ Token.lex "null" = .ok [⟨.null, "null", ⟨0, 4⟩⟩]
    ∧ IsComment "/*\\é*/".toList "null".toList
    ∧ ofText? 512 "/*\\é*/null" = .error (.malformedEscape "\\é" ⟨2, 9⟩) := by
  have hlex : Token.lex "null" = .ok [⟨.null, "null", ⟨0, 4⟩⟩] := by decide +kernel
  have hcanonical : Canonical.ofText "/*\\é*/null" = .error (.malformedEscape "\\é" ⟨2, 9⟩) := by
    decide
  have hinside : ¬ ['*', '/'] <:+: "\\é".toList := by decide
  refine ⟨?_, hlex, .block hinside _, ?_⟩
  · rw [ofText?_eq_ok_iff, ofCanonical?, hlex]
    exact ⟨by decide, rfl⟩
  · rw [ofText?, hcanonical]
    rfl

end Value

end JsonAxes
