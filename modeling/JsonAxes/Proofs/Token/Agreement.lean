import JsonAxes.Proofs.Token.Form
import JsonAxes.Proofs.Token.Lexeme
import JsonAxes.Proofs.Token.Runs
import Mathlib.Data.List.Forall2

/-!
# Cutting the canonical form of a text

A text that can be escaped and its canonical form are cut into tokens side by side. Where the text
has a character to be escaped outside of comments and string literals, both the character and the
backslash of its escape are tokens that nobody takes (`Lexer.Output.IsBroken`). So either both texts
break off, or they are cut into tokens that agree (`Token.Agrees`, `Lexer.drain_form`).
-/

set_option autoImplicit false

namespace JsonAxes

namespace Token

open Canonical

/-! ## Tokens -/

/-- Whether two tokens say the same: they have the same text, or are string literals whose texts
resolve to the same. -/
structure Agrees (t u : Token) : Prop where
  kind : t.kind = u.kind
  text : t.kind ≠ .string → t.text = u.text
  string : t.kind = .string → ∀ offset offset' out,
    Text.unescape offset t.text.toList = .ok out ↔ Text.unescape offset' u.text.toList = .ok out

theorem agrees_of_eq {t u : Token} (hkind : t.kind = u.kind) (htext : t.text = u.text)
    (hstring : t.kind ≠ .string) : Agrees t u :=
  ⟨hkind, fun _ => htext, fun h => absurd h hstring⟩

/-- Tokens agree wherever they stand. -/
theorem agrees_at (t : Token) (span : Span) : Agrees t ⟨t.kind, t.text, span⟩ := by
  refine ⟨rfl, fun _ => rfl, ?_⟩
  intro _ offset offset' out
  constructor
  · intro h
    exact Text.unescape_of_unescape h offset'
  · intro h
    exact Text.unescape_of_unescape h offset

end Token

namespace Lexer

open Canonical Token

/-- Whether what was taken off the form of a text agrees with what was taken off the text, and what
is left is the form of what is left of the text. -/
def TakesAlike (p q : Token × Lexer) : Prop := p.1.Agrees q.1 ∧ q.2.rest = form p.2.rest

theorem exists_stringToken_of_closed {cs body after : List Char}
    (h : closed? (stringBody cs) = some (body, after)) (offset : Nat) :
    ∃ span last, stringToken offset cs
      = .ok (⟨.string, String.ofList body, span⟩, ⟨last, after⟩) := by
  unfold stringToken
  cases hbody : stringBody cs with
  | mk body' ending =>
      rw [hbody] at h
      cases ending with
      | closed after' =>
          cases h
          exact ⟨_, _, rfl⟩
      | unterminated => cases h
      | unterminatedEscape => cases h
      | malformedEscape escape => cases h

theorem exists_stringToken_eq_error {cs : List Char} (h : closed? (stringBody cs) = none)
    (offset : Nat) : ∃ e, stringToken offset cs = .error e := by
  unfold stringToken
  cases hbody : stringBody cs with
  | mk body ending =>
      rw [hbody] at h
      cases ending with
      | closed after => cases h
      | unterminated => exact ⟨_, rfl⟩
      | unterminatedEscape => exact ⟨_, rfl⟩
      | malformedEscape escape => exact ⟨_, rfl⟩

theorem exists_stringBody_of_closed {cs body after : List Char}
    (h : closed? (stringBody cs) = some (body, after)) :
    stringBody cs = (body, .closed after) := by
  cases hbody : stringBody cs with
  | mk body' ending =>
      rw [hbody] at h
      cases ending with
      | closed after' =>
          cases h
          rfl
      | unterminated => cases h
      | unterminatedEscape => cases h
      | malformedEscape escape => cases h

theorem stringToken_form (offset offset' : Nat) {cs : List Char} (h : Escapable false cs) :
    Alike TakesAlike (stringToken offset cs) (stringToken offset' (form cs)) := by
  have hcloses := closesAlike h
  unfold ClosesAlike at hcloses
  cases hclosed : closed? (stringBody cs) with
  | none =>
      rw [hclosed] at hcloses
      obtain ⟨e, he⟩ := exists_stringToken_eq_error hclosed offset
      obtain ⟨e', he'⟩ := exists_stringToken_eq_error hcloses offset'
      rw [he, he']
      exact .error e e'
  | some p =>
      obtain ⟨body, after⟩ := p
      rw [hclosed] at hcloses
      obtain ⟨span, last, ht⟩ := exists_stringToken_of_closed hclosed offset
      obtain ⟨span', last', hu⟩ := exists_stringToken_of_closed hcloses offset'
      -- the body stands in front of the closing quote, so it can be escaped like the whole
      obtain ⟨left, hcs, -⟩ := exists_append_of_stringBody (exists_stringBody_of_closed hclosed)
      rw [hcs] at h
      have hbody := ((escapable_append false body left).mp h).1
      rw [ht, hu]
      refine .ok ⟨⟨rfl, fun hkind => absurd rfl hkind, ?_⟩, rfl⟩
      intro _ offset₁ offset₂ out
      simp only [String.toList_ofList]
      exact (unescape_form hbody offset₁ offset₂ out).symm

theorem numberToken_form (offset offset' : Nat) (cs : List Char) :
    Alike TakesAlike (numberToken offset cs) (numberToken offset' (form cs)) := by
  unfold numberToken
  have hextent := numberExtent_form cs
  generalize numberExtent cs = x at hextent ⊢
  generalize numberExtent (form cs) = y at hextent ⊢
  cases hextent with
  | error d e => exact .error _ _
  | @ok p q h =>
      rw [SameExtent] at h
      rw [h]
      exact .ok ⟨agrees_of_eq rfl rfl (show Kind.number ≠ .string by decide), rfl⟩

theorem wordToken_form {kind : Kind} {word : String} (hkind : kind ≠ .string)
    (hword : ∀ c ∈ word.toList, isCanonical c = true ∧ c ≠ '\\') (offset offset' : Nat)
    (cs : List Char) :
    Alike TakesAlike (wordToken kind word offset cs) (wordToken kind word offset' (form cs)) := by
  unfold wordToken
  have hextent := wordExtent_form hword cs
  generalize wordExtent word.toList cs = x at hextent ⊢
  generalize wordExtent word.toList (form cs) = y at hextent ⊢
  cases hextent with
  | error d e => exact .error _ _
  | ok h =>
      rw [h]
      exact .ok ⟨agrees_of_eq rfl rfl hkind, rfl⟩

theorem singleKind_ne_string (c : Char) : singleKind c ≠ .string := by
  unfold singleKind
  repeat' split
  all_goals decide

/-- A token that begins with a canonical character is cut off the form of a text like off the text
itself. -/
theorem tokenAt_form {before : Bool} {c : Char} {cs : List Char} (hc : isCanonical c = true)
    (h : Escapable before (c :: cs)) (offset offset' : Nat) :
    Alike TakesAlike (tokenAt offset c cs) (tokenAt offset' c (form cs)) := by
  have hword : ∀ {kind : Kind} {word : String}, kind ≠ .string →
      (∀ c ∈ word.toList, isCanonical c = true ∧ c ≠ '\\') →
      Alike TakesAlike (wordToken kind word offset (c :: cs))
        (wordToken kind word offset' (c :: form cs)) := by
    intro kind word hkind hword
    have hform := wordToken_form hkind hword offset offset' (c :: cs)
    rwa [form_cons hc] at hform
  unfold tokenAt
  by_cases hquote : c = '"'
  · rw [if_pos hquote, if_pos hquote]
    rw [hquote] at h
    exact stringToken_form offset offset' (h.tail (by decide))
  · rw [if_neg hquote, if_neg hquote]
    by_cases hnumber : c = '-' ∨ c.isDigit = true
    · rw [if_pos hnumber, if_pos hnumber]
      have hform := numberToken_form offset offset' (c :: cs)
      rwa [form_cons hc] at hform
    · rw [if_neg hnumber, if_neg hnumber]
      split
      · exact hword (by decide) (List.forall_iff_forall_mem.mp (by decide))
      · split
        · exact hword (by decide) (List.forall_iff_forall_mem.mp (by decide))
        · split
          · exact hword (by decide) (List.forall_iff_forall_mem.mp (by decide))
          · split
            · exact .error _ _
            · exact .ok ⟨agrees_of_eq rfl rfl (singleKind_ne_string c), rfl⟩

/-! ## Runs of the lexer -/

namespace Output

/-- Whether a run of the lexer comes to nothing: it breaks off with an error, or one of its tokens
is of no use. -/
def IsBroken (x : Output) : Prop := x.error? ≠ none ∨ ∃ t ∈ x.tokens, t.kind = .unknown

/-- Whether two runs of the lexer come to the same. -/
inductive Corresponds : Output → Output → Prop where
  | broken {x y : Output} (hx : x.IsBroken) (hy : y.IsBroken) : Corresponds x y
  | complete {ts us : List Token} {l l' : Lexer} (h : List.Forall₂ Agrees ts us) :
      Corresponds ⟨ts, none, l⟩ ⟨us, none, l'⟩

theorem IsBroken.cons {x : Output} (h : x.IsBroken) (t : Token) :
    IsBroken ⟨t :: x.tokens, x.error?, x.final⟩ := by
  rcases h with h | ⟨u, hu, hkind⟩
  · exact .inl h
  · exact .inr ⟨u, List.mem_cons_of_mem t hu, hkind⟩

theorem Corresponds.cons {x y : Output} (h : Corresponds x y) {t u : Token} (ht : t.Agrees u) :
    Corresponds ⟨t :: x.tokens, x.error?, x.final⟩ ⟨u :: y.tokens, y.error?, y.final⟩ := by
  cases h with
  | broken hx hy => exact .broken (hx.cons t) (hy.cons u)
  | complete h => exact .complete (.cons ht h)

end Output

theorem isBroken_of_error {l l' : Lexer} {e : ReadError} (h : l.next = (some (.error e), l')) :
    l.drain.IsBroken := by
  rw [drain_of_error h]
  exact .inl nofun

theorem isBroken_of_unknown {l l' : Lexer} {t : Token} (h : l.next = (some (.ok t), l'))
    (hkind : t.kind = .unknown) : l.drain.IsBroken := by
  rw [drain_of_ok h]
  exact .inr ⟨t, List.mem_cons_self, hkind⟩

theorem tokenAt_backslash (offset : Nat) (rest : List Char) :
    tokenAt offset '\\' rest = .ok (covering .unknown offset ['\\'] rest) :=
  tokenAt_of_unknown (by decide) (by decide) (by decide) (by decide) (by decide) offset rest

theorem tokenAt_of_not_isCanonical {c : Char} (hc : isCanonical c = false) (offset : Nat)
    (rest : List Char) : tokenAt offset c rest = .ok (covering .unknown offset [c] rest) := by
  have hne : ∀ d, isCanonical d = true → c ≠ d := by
    rintro d hd rfl
    rw [hd] at hc
    cases hc
  apply tokenAt_of_unknown (hne _ rfl)
  · rintro (rfl | hdigit)
    · cases hc
    · rw [(isCanonical_of_isDigit hdigit).1] at hc
      cases hc
  · intro hmem
    simp only [List.mem_cons, List.not_mem_nil, or_false] at hmem
    rcases hmem with rfl | rfl | rfl <;> cases hc
  · exact hne _ rfl
  · unfold singleKind
    rw [if_neg (hne _ rfl), if_neg (hne _ rfl), if_neg (hne _ rfl), if_neg (hne _ rfl),
      if_neg (hne _ rfl), if_neg (hne _ rfl)]

/-- The next token of a text and of its form, where both have come to one. -/
theorem corresponds_of_skipTrivia {before : Bool} {offset offset' start start' : Nat}
    {cs rest : List Char} {c : Char} (hcs : skipTrivia offset cs = .ok (start, c :: rest))
    (hform : skipTrivia offset' (form cs) = .ok (start', form (c :: rest)))
    (h : Escapable before (c :: rest))
    (hbehind : ∀ (l : Lexer) (last : Nat), (∃ piece, c :: rest = piece ++ l.rest) →
      l.rest.length ≤ rest.length → Output.Corresponds l.drain (drain ⟨last, form l.rest⟩)) :
    Output.Corresponds (drain ⟨offset, cs⟩) (drain ⟨offset', form cs⟩) := by
  by_cases hc : isCanonical c = true
  · rw [form_cons hc] at hform
    have htoken := tokenAt_form hc h start start'
    cases ht : tokenAt start c rest with
    | error e =>
        cases hu : tokenAt start' c (form rest) with
        | ok q =>
            rw [ht, hu] at htoken
            cases htoken
        | error e' =>
            exact .broken (isBroken_of_error (next_of_tokenAt_error hcs ht))
              (isBroken_of_error (next_of_tokenAt_error hform hu))
    | ok p =>
        obtain ⟨t, l⟩ := p
        cases hu : tokenAt start' c (form rest) with
        | error e =>
            rw [ht, hu] at htoken
            cases htoken
        | ok q =>
            obtain ⟨u, last, left⟩ := q
            rw [ht, hu] at htoken
            cases htoken with
            | ok htakes =>
                obtain ⟨hagrees, hleft⟩ := htakes
                have hnext := next_of_tokenAt_ok hcs ht
                have hnext' := next_of_tokenAt_ok hform hu
                by_cases hkind : t.kind = .unknown
                · have hkind' : u.kind = .unknown := by rw [← hagrees.kind, hkind]
                  exact .broken (isBroken_of_unknown hnext hkind)
                    (isBroken_of_unknown hnext' hkind')
                · obtain ⟨piece, -, hpiece, -⟩ := exists_writtenAs_of_tokenAt ht
                  rw [drain_of_ok hnext, drain_of_ok hnext', show left = form l.rest from hleft]
                  exact (hbehind l last ⟨piece, hpiece⟩ (length_of_tokenAt ht)).cons hagrees
  · -- neither the character nor the backslash of its escape is taken by anybody
    rw [Bool.not_eq_true] at hc
    obtain ⟨ds, hds⟩ := exists_form_eq hc rest
    rw [hds] at hform
    exact .broken
      (isBroken_of_unknown (next_of_tokenAt_ok hcs (tokenAt_of_not_isCanonical hc start rest)) rfl)
      (isBroken_of_unknown (next_of_tokenAt_ok hform (tokenAt_backslash start' ds)) rfl)

/-- A text that can be escaped and its canonical form are cut alike: both break off, or they are
cut into tokens that agree. -/
theorem drain_form {before : Bool} {cs : List Char} (h : Escapable before cs)
    (offset offset' : Nat) :
    Output.Corresponds (drain ⟨offset, cs⟩) (drain ⟨offset', form cs⟩) := by
  -- by the length of the text: behind a token there is less of it
  induction hlength : cs.length using Nat.strongRecOn generalizing before cs offset offset' with
  | ind n ih =>
      have hskip := skipTrivia_form offset offset' cs
      cases hcs : skipTrivia offset cs with
      | error e =>
          cases hform : skipTrivia offset' (form cs) with
          | ok q =>
              rw [hcs, hform] at hskip
              cases hskip
          | error e' =>
              exact .broken (isBroken_of_error (next_of_skipTrivia_error hcs))
                (isBroken_of_error (next_of_skipTrivia_error hform))
      | ok p =>
          cases hform : skipTrivia offset' (form cs) with
          | error e =>
              rw [hcs, hform] at hskip
              cases hskip
          | ok q =>
              obtain ⟨start, rest⟩ := p
              obtain ⟨start', rest'⟩ := q
              rw [hcs, hform] at hskip
              cases hskip with
              | ok hrest =>
                  have hrest : rest' = form rest := hrest
                  rw [hrest] at hform
                  cases rest with
                  | nil =>
                      rw [drain_of_none (next_of_skipTrivia_nil hcs),
                        drain_of_none (next_of_skipTrivia_nil hform)]
                      exact .complete .nil
                  | cons c rest =>
                      obtain ⟨skipped, hskipped⟩ := exists_append_of_skipTrivia hcs
                      rw [← hskipped] at h
                      obtain ⟨before', hbefore'⟩ := h.suffix
                      refine corresponds_of_skipTrivia hcs hform hbefore' ?_
                      rintro ⟨last, left⟩ last' ⟨piece, hpiece⟩ hle
                      rw [hpiece] at hbefore'
                      obtain ⟨_, hleft⟩ := hbefore'.suffix
                      have hlt : left.length < n := by
                        rw [← hlength, ← hskipped, List.length_append, List.length_cons]
                        have hle : left.length ≤ rest.length := hle
                        omega
                      exact ih left.length hlt hleft last last' rfl

end Lexer

end JsonAxes
