import JsonAxes.Proofs.Token.Agreement
import JsonAxes.Proofs.Token.Gap

/-!
# How tokens are laid out in a text

A text that is cut into tokens consists of gaps and pieces in turn, a piece for each token and a gap
behind the last (`Laid`, `Lexer.laid_of_drain`). In front of a token or behind it the text can be
taken apart: whatever stands behind there, the front yields the tokens in front, if it does not go
on with a part of a numeral (`Opens`, `Laid.exists_split`). So a comment may stand there as well
(`Laid.yields_insert`).
-/

set_option autoImplicit false

namespace JsonAxes

/-! ## Fronts of a text -/

namespace Text

theorem eq_nil_of_utf8Length_le_zero {cs : List Char} (h : utf8Length cs ≤ 0) : cs = [] := by
  cases cs with
  | nil => rfl
  | cons c cs =>
      have hpos := c.utf8Size_pos
      rw [utf8Length_cons] at h
      omega

/-- Of two fronts of a text the longer goes on from the shorter. -/
theorem exists_append_of_utf8Length_le {as bs cs ds : List Char} (h : as ++ bs = cs ++ ds)
    (hle : utf8Length as ≤ utf8Length cs) : ∃ es, cs = as ++ es ∧ bs = es ++ ds := by
  rcases List.append_eq_append_iff.mp h with ⟨es, hcs, hbs⟩ | ⟨es, has, hds⟩
  · exact ⟨es, hcs, hbs⟩
  · rw [has, utf8Length_append] at hle
    have hnil : es = [] := eq_nil_of_utf8Length_le_zero (by omega)
    rw [hnil, List.append_nil] at has
    rw [hnil, List.nil_append] at hds
    exact ⟨[], by rw [has, List.append_nil], hds.symm⟩

/-- Fronts of one length are the same. -/
theorem append_inj_of_utf8Length {as bs cs ds : List Char} (h : as ++ bs = cs ++ ds)
    (hlength : utf8Length as = utf8Length cs) : as = cs ∧ bs = ds := by
  obtain ⟨es, hcs, hbs⟩ := exists_append_of_utf8Length_le h (Nat.le_of_eq hlength)
  have hnil : es = [] := by
    apply eq_nil_of_utf8Length_le_zero
    rw [hcs, utf8Length_append] at hlength
    omega
  rw [hnil, List.append_nil] at hcs
  rw [hnil, List.nil_append] at hbs
  exact ⟨hcs.symm, hbs⟩

end Text

namespace Lexer

open Token

/-! ## What a text yields -/

/-- Whether a text is cut to its end into tokens that agree with some, wherever it stands. -/
def Yields (cs : List Char) (ts : List Token) : Prop :=
  ∀ offset, ∃ us last, drain ⟨offset, cs⟩ = ⟨us, none, last⟩ ∧ List.Forall₂ Agrees ts us

/-- Whether nothing but gaps is in a text. -/
def IsBlankText (cs : List Char) : Prop :=
  ∀ offset, ∃ offset', skipTrivia offset cs = .ok (offset', [])

variable {cs rest front gap : List Char} {t : Token} {ts us : List Token}

theorem IsBlankText.yields (h : IsBlankText cs) : Yields cs [] := by
  intro offset
  obtain ⟨offset', hskip⟩ := h offset
  exact ⟨[], _, drain_of_none (next_of_skipTrivia_nil hskip), .nil⟩

theorem yields_nil : Yields [] [] := by
  apply IsBlankText.yields
  exact fun offset => ⟨offset, skipTrivia_nil offset⟩

theorem Yields.cons (ht : CutsInto cs (IsSingle t.kind t.text.toList) rest) (h : Yields rest ts) :
    Yields cs (t :: ts) := by
  intro offset
  obtain ⟨_, offset', ⟨span, rfl⟩, hcuts⟩ := ht offset
  obtain ⟨us, last, hdrain, hagrees⟩ := h offset'
  refine ⟨⟨t.kind, t.text, span⟩ :: us, last, ?_, .cons (agrees_at t span) hagrees⟩
  rw [drain_of_cuts hcuts, hdrain, String.ofList_toList]
  rfl

/-- What a text yields is what it is cut into, wherever the tokens stand. -/
theorem Yields.exists_lex (h : Yields cs ts) :
    ∃ us, Token.lex (String.ofList cs) = .ok us ∧ List.Forall₂ Agrees ts us := by
  obtain ⟨us, last, hdrain, hagrees⟩ := h 0
  refine ⟨us, ?_, hagrees⟩
  rw [Token.lex, Lexer.ofText, String.toList_ofList, hdrain]

/-- Text that is skipped in front of some other text is of no account to a run without an error. -/
theorem drain_of_skipTrivia {offset : Nat} {last : Lexer}
    (hgap : skipTrivia offset (gap ++ cs) = skipTrivia (offset + Text.utf8Length gap) cs)
    (h : drain ⟨offset + Text.utf8Length gap, cs⟩ = ⟨us, none, last⟩) :
    drain ⟨offset, gap ++ cs⟩ = ⟨us, none, last⟩ := by
  rw [← h]
  cases hskip : skipTrivia (offset + Text.utf8Length gap) cs with
  | error e =>
      rw [drain_of_error (next_of_skipTrivia_error hskip)] at h
      cases h
  | ok p =>
      have hnext := next_of_skipTrivia hskip
      have hnext' := next_of_skipTrivia (hgap.trans hskip)
      exact drain_congr (hnext'.trans hnext.symm)

theorem Yields.skipped
    (hgap : ∀ offset, skipTrivia offset (gap ++ cs) = skipTrivia (offset + Text.utf8Length gap) cs)
    (h : Yields cs ts) : Yields (gap ++ cs) ts := by
  intro offset
  obtain ⟨us, last, hdrain, hagrees⟩ := h (offset + Text.utf8Length gap)
  exact ⟨us, last, drain_of_skipTrivia (hgap offset) hdrain, hagrees⟩

/-- Whether a front of a text yields some tokens, whatever stands behind it, if that does not go on
with a part of a numeral. -/
def Opens (front : List Char) (ts : List Token) : Prop :=
  ∀ rest us, EndsNumeral rest → Yields rest us → Yields (front ++ rest) (ts ++ us)

theorem opens_of_isSkipped (h : IsSkipped gap) : Opens gap [] :=
  fun rest _ _ hrest => hrest.skipped fun offset => h offset rest

/-! ## Gaps and pieces -/

/-- A gap and the piece that a token is cut from behind it, in front of a text. Neither ends in a
backslash. -/
structure Piece (offset : Nat) (gap piece rest : List Char) (t : Token) : Prop where
  isSkipped : IsSkipped gap
  span : t.span = spanOf (offset + Text.utf8Length gap) piece
  cutFrom : t.CutFrom piece
  ends : t.kind = .number → EndsNumeral rest
  begun_gap : Canonical.begun false gap = false
  begun_piece : Canonical.begun false piece = false

/-- How some tokens are laid out in a text that begins at an offset. -/
inductive Laid : Nat → List Char → List Token → Prop where
  | nil {offset : Nat} {cs : List Char} (h : IsBlankText cs) : Laid offset cs []
  | cons {offset : Nat} {gap piece rest : List Char} {t : Token} {ts : List Token}
      (h : Piece offset gap piece rest t)
      (hrest : Laid (offset + Text.utf8Length (gap ++ piece)) rest ts) :
      Laid offset ((gap ++ piece) ++ rest) (t :: ts)

variable {offset : Nat} {piece : List Char}

theorem opens_nil : Opens [] [] := fun _ _ _ hrest => hrest

theorem Piece.opens_append {ts : List Token} (h : Piece offset gap piece rest t)
    (hfront : Opens front ts) (hends : ∀ rest, EndsNumeral rest → t.kind = .number →
      EndsNumeral (front ++ rest)) : Opens ((gap ++ piece) ++ front) (t :: ts) := by
  intro rest us hrest hyields
  rw [List.append_assoc, List.append_assoc]
  apply Yields.skipped fun offset => h.isSkipped offset _
  exact .cons (h.cutFrom _ (hends rest hrest)) (hfront rest us hrest hyields)

theorem Laid.yields (h : Laid offset cs ts) : Yields cs ts := by
  induction h with
  | nil h => exact h.yields
  | cons h _ ih =>
      rw [List.append_assoc]
      apply Yields.skipped fun offset => h.isSkipped offset _
      exact .cons (h.cutFrom _ h.ends) ih

theorem Laid.le_of_mem (h : Laid offset cs ts) (ht : t ∈ ts) :
    offset ≤ t.span.lo ∧ t.span.lo ≤ t.span.hi := by
  induction h with
  | nil => cases ht
  | cons h _ ih =>
      rcases List.mem_cons.mp ht with rfl | ht
      · rw [h.span, spanOf]
        exact ⟨Nat.le_add_right _ _, Nat.le_add_right _ _⟩
      · obtain ⟨hlo, hhi⟩ := ih ht
        exact ⟨Nat.le_trans (Nat.le_add_right _ _) hlo, hhi⟩

/-- A character that begins no token does not follow a number. -/
theorem endsNumeral_of_drain {last : Lexer} (h : drain ⟨offset, rest⟩ = ⟨ts, none, last⟩)
    (hknown : ∀ t ∈ ts, t.kind ≠ .unknown) (hdigits : EndsDigits rest) : EndsNumeral rest := by
  intro c hc
  cases rest with
  | nil => cases hc
  | cons d rest =>
      cases hc
      have hne : ∀ d : Char, IsSolid d →
          (∀ rest, tokenAt offset d rest = .ok (covering .unknown offset [d] rest)) → c ≠ d := by
        rintro d hsolid htoken rfl
        rw [drain_of_ok (next_of_tokenAt hsolid (htoken rest))] at h
        obtain ⟨hts, -, -⟩ := Output.mk.inj h
        rw [← hts] at hknown
        exact hknown _ List.mem_cons_self rfl
      refine ⟨hdigits c rfl, hne '.' ⟨rfl, by decide, by decide⟩ fun _ => rfl,
        hne 'e' ⟨rfl, by decide, by decide⟩ fun _ => rfl,
        hne 'E' ⟨rfl, by decide, by decide⟩ fun _ => rfl⟩

/-- A text that is cut into tokens, each of some use, is laid out in them. -/
theorem laid_of_drain {last : Lexer} (h : drain ⟨offset, cs⟩ = ⟨ts, none, last⟩)
    (hknown : ∀ t ∈ ts, t.kind ≠ .unknown) : Laid offset cs ts := by
  induction ts generalizing offset cs with
  | nil =>
      rcases next_of_drain h with ⟨-, l, hnext⟩ | ⟨_, _, _, heq, -, -⟩
      · obtain ⟨start, hskip⟩ := exists_of_next_eq_none hnext
        exact .nil (exists_skipTrivia_of_skipTrivia hskip)
      · cases heq
  | cons t ts ih =>
      rcases next_of_drain h with ⟨heq, -⟩ | ⟨_, _, l, heq, hnext, hdrain⟩
      · cases heq
      · cases heq
        have hbehind : ∀ t ∈ ts, t.kind ≠ .unknown :=
          fun t ht => hknown t (List.mem_cons_of_mem _ ht)
        obtain ⟨start, c, rest, hskip, ht⟩ := exists_of_next_eq_ok hnext
        obtain ⟨gap, rfl, hgap, rfl⟩ := exists_isGap_of_skipTrivia hskip
        obtain ⟨piece, hcut⟩ := cutAt_of_tokenAt ht (hknown t List.mem_cons_self)
        have hstop : l = ⟨offset + Text.utf8Length (gap ++ piece), l.rest⟩ := by
          rw [Text.utf8Length_append, ← Nat.add_assoc, ← hcut.stop]
        rw [hstop] at hdrain
        have hends : t.kind = .number → EndsNumeral l.rest :=
          fun hnumber => endsNumeral_of_drain hdrain hbehind (hcut.number hnumber)
        rw [hcut.append, ← List.append_assoc]
        exact .cons
          ⟨hgap.isSkipped, hcut.span, hcut.cutFrom, hends, hgap.begun, hcut.begun⟩
          (ih hdrain hbehind)

/-! ## Taking a text apart -/

/-- A text taken apart in front of a token or behind it. -/
structure Split (front back : List Char) (ts before behind : List Token) : Prop where
  append : ts = before ++ behind
  opens : Opens front before
  yields : Yields back behind
  begun : Canonical.begun false front = false

/-- A text can be taken apart in front of each of its tokens and behind each. -/
theorem Laid.exists_split {back : List Char} (h : Laid offset cs ts) (ht : t ∈ ts)
    (hcs : cs = front ++ back)
    (hpoint : offset + Text.utf8Length front = t.span.lo
      ∨ offset + Text.utf8Length front = t.span.hi) :
    ∃ before behind, Split front back ts before behind := by
  induction h generalizing front with
  | nil => cases ht
  | @cons offset gap piece rest u us h hrest ih =>
      have hbegun := Canonical.begun_append_of_not h.begun_gap h.begun_piece
      rcases List.mem_cons.mp ht with rfl | ht
      · rw [h.span] at hpoint
        simp only [spanOf] at hpoint
        rcases hpoint with hlo | hhi
        · rw [List.append_assoc] at hcs
          obtain ⟨rfl, rfl⟩ := Text.append_inj_of_utf8Length hcs (by omega)
          exact ⟨[], _, rfl, opens_of_isSkipped h.isSkipped,
            .cons (h.cutFrom _ h.ends) hrest.yields, h.begun_gap⟩
        · have hlength : Text.utf8Length (gap ++ piece) = Text.utf8Length front := by
            rw [Text.utf8Length_append]
            omega
          obtain ⟨rfl, rfl⟩ := Text.append_inj_of_utf8Length hcs hlength
          have hopens := h.opens_append opens_nil fun _ hrest _ => hrest
          rw [List.append_nil] at hopens
          exact ⟨[_], us, rfl, hopens, hrest.yields, hbegun⟩
      · -- the point is behind this piece, so that the front goes on from there
        obtain ⟨hlo, hhi⟩ := hrest.le_of_mem ht
        have hle : Text.utf8Length (gap ++ piece) ≤ Text.utf8Length front := by
          rcases hpoint with hpoint | hpoint
          · omega
          · omega
        obtain ⟨front, rfl, rfl⟩ := Text.exists_append_of_utf8Length_le hcs hle
        rw [Text.utf8Length_append, ← Nat.add_assoc] at hpoint
        obtain ⟨before, behind, rfl, hopens, hyields, hfront⟩ := ih ht rfl hpoint
        refine ⟨u :: before, behind, rfl, h.opens_append hopens ?_, hyields,
          Canonical.begun_append_of_not hbegun hfront⟩
        intro rest hends hnumber
        cases front with
        | nil => exact hends
        | cons c front =>
            intro d hd
            exact h.ends hnumber d hd

/-- A comment in front of a token or behind it makes no difference to what a text yields. -/
theorem Split.yields_insert {back comment : List Char} {before behind : List Token}
    (h : Split front back ts before behind) (hcomment : IsComment comment back) :
    Yields (front ++ (comment ++ back)) ts := by
  rw [h.append]
  apply h.opens
  · exact hcomment.endsNumeral_append
  · exact h.yields.skipped hcomment.skipTrivia

end Lexer

end JsonAxes
