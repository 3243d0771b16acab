import JsonAxes.Proofs.Token.Failure
import JsonAxes.Proofs.Token.Laid
import JsonAxes.Proofs.Token.Lexeme

/-!
# Tokens and gaps tile a text

The tokens of a text and the gaps between them stand one behind another, so that no character is
lost and none is counted twice (`Tiles`). What is left behind the last token is a gap again, or it
holds what the lexer fails on. The spans of the tokens are therefore in order, each covers the piece
of the text that its token is written as, and a lexer that is asked again and again yields each
token once, then its error, if it has one, and nothing more.
-/

set_option autoImplicit false

namespace JsonAxes.Lexer

open Token

/-! ## Calls of a lexer -/

/-- What a lexer yields when it is asked for the next token, by the number of times it has been
asked before. -/
def yieldAt (l : Lexer) : Nat → Option (Except ReadError Token)
  | 0 => l.next.1
  | call + 1 => l.next.2.yieldAt call

/-- The tokens of a run one by one, and then its error. -/
def Output.items (x : Output) : List (Except ReadError Token) :=
  x.tokens.map .ok ++ x.error?.toList.map .error

theorem yieldAt_nil (offset call : Nat) : yieldAt ⟨offset, []⟩ call = none := by
  have hnext : next ⟨offset, []⟩ = (none, ⟨offset, []⟩) :=
    next_of_skipTrivia_nil (skipTrivia_nil offset)
  induction call with
  | zero => rw [yieldAt, hnext]
  | succ call ih => rw [yieldAt, hnext, ih]

/-- A lexer that yields no token has no text left to it. -/
theorem rest_eq_nil_of_next {l : Lexer} (h : ∀ t, l.next.1 ≠ some (.ok t)) :
    l.next.2.rest = [] := by
  unfold next at h ⊢
  split
  · rfl
  · rfl
  · next hskip =>
    rw [hskip] at h
    split
    · rfl
    · next t _ ht =>
      simp only [ht] at h
      exact absurd rfl (h t)

/-- Asked again and again, a lexer yields what it yields when it is run to its end. -/
theorem yieldAt_eq (l : Lexer) (call : Nat) : l.yieldAt call = l.drain.items[call]? := by
  induction call generalizing l with
  | zero =>
      rcases hnext : l.next with ⟨_ | _ | t, behind⟩
      · rw [yieldAt, hnext, drain_of_none hnext]
        rfl
      · rw [yieldAt, hnext, drain_of_error hnext]
        rfl
      · rw [yieldAt, hnext, drain_of_ok hnext]
        rfl
  | succ call ih =>
      -- behind anything but a token no text is left, so that nothing more comes of it
      have hstops : (∀ t, l.next.1 ≠ some (.ok t)) → l.yieldAt (call + 1) = none := by
        intro h
        have hrest : l.next.2 = ⟨l.next.2.offset, []⟩ := by
          rw [← rest_eq_nil_of_next h]
        rw [yieldAt, hrest, yieldAt_nil]
      rcases hnext : l.next with ⟨_ | _ | t, behind⟩
      · rw [hstops (by rw [hnext]; nofun), drain_of_none hnext]
        rfl
      · rw [hstops (by rw [hnext]; nofun), drain_of_error hnext]
        rfl
      · rw [yieldAt, hnext, ih, drain_of_ok hnext]
        rfl

/-! ## Spans -/

/-- A span that covers something lies within the text that holds it. -/
theorem Covers.bounds {offset : Nat} {cs piece : List Char} {span : Span}
    (h : Covers offset cs span piece) (hne : piece ≠ []) :
    offset ≤ span.lo ∧ span.lo < span.hi ∧ span.hi ≤ offset + Text.utf8Length cs := by
  obtain ⟨before, ⟨behind, rfl⟩, rfl⟩ := h
  have hpos : 0 < Text.utf8Length piece := by
    apply Nat.pos_of_ne_zero
    intro hzero
    exact hne (Text.eq_nil_of_utf8Length_le_zero (Nat.le_of_eq hzero))
  simp only [spanOf, Text.utf8Length_append]
  omega

/-! ## Tiles -/

/-- A gap, and behind it what a token is written as, from an offset on. -/
structure Tile (offset : Nat) (gap piece : List Char) (t : Token) : Prop where
  isGap : IsGap false gap
  writtenAs : t.WrittenAs piece
  span : t.span = spanOf (offset + Text.utf8Length gap) piece

/-- Some tokens and the gaps in front of them, one behind another, from where a lexer stands up to
where another does. -/
inductive Tiles : Lexer → List Token → Lexer → Prop where
  | nil (l : Lexer) : Tiles l [] l
  | cons {offset : Nat} {gap piece rest : List Char} {t : Token} {ts : List Token} {last : Lexer}
      (h : Tile offset gap piece t)
      (hrest : Tiles ⟨offset + Text.utf8Length (gap ++ piece), rest⟩ ts last) :
      Tiles ⟨offset, (gap ++ piece) ++ rest⟩ (t :: ts) last

/-- What stands behind the last token: a gap, or what the lexer fails on. -/
def Ends (last : Lexer) : Option ReadError → Prop
  | none => IsGap true last.rest
  | some e => Blames last.offset last.rest e

variable {l last : Lexer} {t : Token} {ts : List Token} {e : ReadError}

/-- The next token stands behind a gap. -/
theorem exists_tile_of_next {offset : Nat} {cs : List Char}
    (h : next ⟨offset, cs⟩ = (some (.ok t), l)) :
    ∃ gap piece, Tile offset gap piece t ∧ cs = (gap ++ piece) ++ l.rest
      ∧ l.offset = offset + Text.utf8Length (gap ++ piece) := by
  obtain ⟨start, c, rest, hskip, ht⟩ := exists_of_next_eq_ok h
  obtain ⟨gap, rfl, hgap, rfl⟩ := exists_isGap_of_skipTrivia hskip
  obtain ⟨piece, hpiece, hrest, hspan, hstop⟩ := exists_writtenAs_of_tokenAt ht
  refine ⟨gap, piece, ⟨hgap, hpiece, hspan⟩, ?_, ?_⟩
  · rw [hrest, List.append_assoc]
  · rw [hstop, Text.utf8Length_append, Nat.add_assoc]

/-- What stands behind the last token where there is none. -/
theorem ends_of_next {offset : Nat} {cs : List Char} (h : (next ⟨offset, cs⟩).1 = none) :
    Ends ⟨offset, cs⟩ none := by
  obtain ⟨start, hskip⟩ := exists_of_next_eq_none (Prod.ext h rfl)
  obtain ⟨gap, rfl, hgap, -⟩ := exists_isGap_of_skipTrivia hskip
  rw [List.append_nil]
  exact hgap

/-- The tokens of a run tile what the lexer runs over, up to where it stops. -/
theorem exists_tiles_next (l : Lexer) :
    ∃ last, Tiles l l.drain.tokens last ∧ last.next.1 = l.drain.error?.map .error := by
  -- by the length of the text, of which each token takes some
  induction hlength : l.rest.length using Nat.strongRecOn generalizing l with
  | ind n ih =>
      obtain ⟨offset, cs⟩ := l
      rcases hnext : next ⟨offset, cs⟩ with ⟨_ | _ | t, behind⟩
      · rw [drain_of_none hnext]
        exact ⟨⟨offset, cs⟩, .nil _, congrArg Prod.fst hnext⟩
      · rw [drain_of_error hnext]
        exact ⟨⟨offset, cs⟩, .nil _, congrArg Prod.fst hnext⟩
      · have hlt : behind.rest.length < n := hlength ▸ length_of_next hnext
        obtain ⟨last, htiles, hlast⟩ := ih behind.rest.length hlt behind rfl
        obtain ⟨gap, piece, htile, rfl, hstop⟩ := exists_tile_of_next hnext
        have hbehind : behind = ⟨offset + Text.utf8Length (gap ++ piece), behind.rest⟩ := by
          rw [← hstop]
        rw [hbehind] at htiles
        rw [drain_of_ok hnext]
        rw [hbehind] at hlast ⊢
        exact ⟨last, .cons htile htiles, hlast⟩

theorem exists_tiles (l : Lexer) :
    ∃ last, Tiles l l.drain.tokens last ∧ Ends last l.drain.error? := by
  obtain ⟨last, htiles, hlast⟩ := exists_tiles_next l
  refine ⟨last, htiles, ?_⟩
  cases herror : l.drain.error? with
  | none =>
      rw [herror] at hlast
      exact ends_of_next hlast
  | some e =>
      rw [herror] at hlast
      exact (rejects_of_next hlast).blames

namespace Tiles

/-- Each token covers what it is written as. -/
theorem exists_covers (h : Tiles l ts last) (ht : t ∈ ts) :
    ∃ piece, t.WrittenAs piece ∧ Covers l.offset l.rest t.span piece := by
  induction h with
  | nil => cases ht
  | @cons offset gap piece rest u us last h _ ih =>
      rcases List.mem_cons.mp ht with rfl | ht
      · have hgap : gap ++ piece <+: (gap ++ piece) ++ rest := List.prefix_append _ _
        exact ⟨piece, h.writtenAs, gap, hgap, h.span⟩
      · obtain ⟨piece', hwritten, hcovers⟩ := ih ht
        exact ⟨piece', hwritten, hcovers.append⟩

theorem bounds (h : Tiles l ts last) (ht : t ∈ ts) :
    l.offset ≤ t.span.lo ∧ t.span.lo < t.span.hi := by
  obtain ⟨piece, hwritten, hcovers⟩ := h.exists_covers ht
  obtain ⟨hlo, hlt, -⟩ := hcovers.bounds hwritten.ne_nil
  exact ⟨hlo, hlt⟩

/-- The spans are in order, and none overlaps another. -/
theorem pairwise (h : Tiles l ts last) : ts.Pairwise fun t u => t.span.hi ≤ u.span.lo := by
  induction h with
  | nil => exact .nil
  | @cons offset gap piece rest t ts last h hrest ih =>
      refine .cons ?_ ih
      intro u hu
      obtain ⟨hlo, -⟩ := hrest.bounds hu
      calc t.span.hi = offset + Text.utf8Length (gap ++ piece) := by
            rw [h.span, Text.utf8Length_append, ← Nat.add_assoc]
            rfl
        _ ≤ u.span.lo := hlo

/-- What is true of the text behind the tokens is true of the whole text, if more text may stand in
front. -/
theorem lift (P : Nat → List Char → Prop)
    (happend : ∀ {offset front cs}, P (offset + Text.utf8Length front) cs → P offset (front ++ cs))
    (h : Tiles l ts last) (hlast : P last.offset last.rest) : P l.offset l.rest := by
  induction h with
  | nil => exact hlast
  | cons _ _ ih => exact happend (ih hlast)

/-- What is to blame behind the tokens is a piece of the whole text. -/
theorem blames (h : Tiles l ts last) (he : Blames last.offset last.rest e) :
    Blames l.offset l.rest e :=
  h.lift (fun offset cs => Blames offset cs e) Blames.append he

end Tiles

/-- The error of a run rejects a piece of what the lexer runs over. -/
theorem rejects_of_drain (h : l.drain.error? = some e) : Rejects l.offset l.rest e := by
  obtain ⟨last, htiles, hlast⟩ := exists_tiles_next l
  rw [h] at hlast
  exact htiles.lift (fun offset cs => Rejects offset cs e) Rejects.append (rejects_of_next hlast)

/-- **Tokens and gaps tile a text.** The tokens cover pieces of the text that fit their kinds; the
spans are not empty and in order; what stands in front of the tokens, between them and behind them
is white space and whole comments. If the lexer fails, it yields one error, which points at some of
the text, and nothing behind it. -/
theorem drain_tiles (text : String) :
    (∃ last, Tiles (ofText text) (ofText text).drain.tokens last
      ∧ Ends last (ofText text).drain.error?)
    ∧ ((ofText text).drain.tokens.Pairwise fun t u => t.span.hi ≤ u.span.lo)
    ∧ (∀ t ∈ (ofText text).drain.tokens, t.span.lo < t.span.hi
      ∧ ∃ piece, t.WrittenAs piece ∧ Covers 0 text.toList t.span piece)
    ∧ (∀ e, (ofText text).drain.error? = some e → ∃ span piece, e.span? = some span
      ∧ Covers 0 text.toList span piece
      ∧ span.lo < span.hi ∧ span.hi ≤ Text.utf8Length text.toList)
    ∧ ∀ call, (ofText text).yieldAt call = (ofText text).drain.items[call]? := by
  obtain ⟨last, htiles, hends⟩ := exists_tiles (ofText text)
  refine ⟨⟨last, htiles, hends⟩, htiles.pairwise, ?_, ?_, yieldAt_eq (ofText text)⟩
  · intro t ht
    obtain ⟨-, hlt⟩ := htiles.bounds ht
    exact ⟨hlt, htiles.exists_covers ht⟩
  · intro e he
    rw [he] at hends
    obtain ⟨span, piece, hspan, hne, hcovers⟩ := htiles.blames hends
    have hcovers : Covers 0 text.toList span piece := hcovers
    obtain ⟨-, hlt, hhi⟩ := hcovers.bounds hne
    rw [Nat.zero_add] at hhi
    exact ⟨span, piece, hspan, hcovers, hlt, hhi⟩

/-- A string literal with a character of two bytes, and then a word that breaks off. -/
theorem drain_tiles_brokenWord :
    ((ofText "\"é\" nul").drain.tokens = [⟨.string, "é", ⟨0, 4⟩⟩]
      ∧ (ofText "\"é\" nul").drain.error? = some (.unknownIdentifier "nul" ⟨5, 8⟩))
    ∧ Covers 0 "\"é\" nul".toList ⟨5, 8⟩ "nul".toList
    ∧ (ofText "\"é\" nul").yieldAt 1 = some (.error (.unknownIdentifier "nul" ⟨5, 8⟩))
    ∧ (ofText "\"é\" nul").yieldAt 2 = none := by
  have htokens : (ofText "\"é\" nul").drain.tokens = [⟨.string, "é", ⟨0, 4⟩⟩] := by decide +kernel
  have herror : (ofText "\"é\" nul").drain.error? = some (.unknownIdentifier "nul" ⟨5, 8⟩) := by
    decide +kernel
  obtain ⟨-, -, -, -, hyields⟩ := drain_tiles "\"é\" nul"
  refine ⟨⟨htokens, herror⟩, ⟨"\"é\" ".toList, List.prefix_refl _, rfl⟩, ?_, ?_⟩
  · rw [hyields, Output.items, htokens, herror]
    rfl
  · rw [hyields, Output.items, htokens, herror]
    rfl

end JsonAxes.Lexer
