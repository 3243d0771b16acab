import JsonAxes.Proofs.Value.Viable

/-!
# What the lexer takes, the reader takes

The lexer checks escapes, numerals and words before it yields a token, and the reader looks at the
text of the token again. The two agree: whatever the lexer yields is written as a lexeme, and the
text of a lexeme reads as its kind wants it (`Token.IsSound`). So nothing is wrong with a token of a
text by itself, except that a number may lie beyond the largest one (`Value.ofTokens?_of_lexed`).
-/

set_option autoImplicit false

namespace JsonAxes

open Reader

namespace Token

/-- Whether the text of a token reads as its kind wants it. -/
structure IsSound (t : Token) : Prop where
  string : t.kind = .string → ∃ s, stringOf t = .ok s
  number : t.kind = .number → ∃ n, Number.ofText? t.text.toList = some n
  bool : t.kind = .bool → ∃ b, boolOf t = .ok b
  null : t.kind = .null → nullOf t = .ok ()

variable {t : Token} {piece : List Char}

theorem WrittenAs.exists_isOf (h : t.WrittenAs piece) (hkind : t.kind ≠ .unknown) :
    ∃ x : Lexeme, t.IsOf x ∧ piece = x.written := by
  cases h with
  | @lexeme x h => exact ⟨x, h, rfl⟩
  | unknown hunknown _ _ => exact absurd hunknown hkind

/-- What a token is written as is sound. -/
theorem WrittenAs.isSound (h : t.WrittenAs piece) : t.IsSound where
  string hkind := exists_stringOf_iff.mpr (h.wellEscaped hkind)
  number hkind := by
    obtain ⟨x, ⟨hx, htext⟩, -⟩ := h.exists_isOf (by rw [hkind]; nofun)
    rw [hkind] at hx
    cases x with
    | number n =>
        rw [htext, String.toList_ofList]
        exact ⟨_, Numeral.ofText?_text n⟩
    | _ => cases hx
  bool hkind := by
    obtain ⟨x, ⟨hx, htext⟩, -⟩ := h.exists_isOf (by rw [hkind]; nofun)
    rw [hkind] at hx
    cases x with
    | bool b => exact ⟨b, boolOf_eq_ok_iff.mpr (htext.trans String.ofList_toList)⟩
    | _ => cases hx
  null hkind := by
    obtain ⟨x, ⟨hx, htext⟩, -⟩ := h.exists_isOf (by rw [hkind]; nofun)
    rw [hkind] at hx
    cases x with
    | null => exact nullOf_eq_ok_iff.mpr htext
    | _ => cases hx

/-- The tokens of a text are sound, those in front of an error too. -/
theorem isSound_of_mem_drain {text : String} (h : t ∈ (Lexer.ofText text).drain.tokens) :
    t.IsSound := by
  obtain ⟨last, htiles, -⟩ := Lexer.exists_tiles (Lexer.ofText text)
  obtain ⟨piece, hwritten, -⟩ := htiles.exists_covers h
  exact hwritten.isSound

end Token

namespace Reader

variable {limit : Nat} {t : Token} {e : ReadError}

/-- The objections that are left where a token is sound. -/
inductive Refusal (limit : Nat) (t : Token) : ReadError → Prop
  | unexpected (r : Reader) : Refusal limit t (r.refuse t.display t.span)
  | tooDeep (hkind : t.kind = .objectOpen ∨ t.kind = .arrayOpen) :
      Refusal limit t (.nestingTooDeep limit t.span)
  | outOfRange (hkind : t.kind = .number) : Refusal limit t (.numberOutOfRange t.text t.span)

theorem Objection.refusal (h : Objection limit t e) (hsound : t.IsSound) : Refusal limit t e := by
  cases h with
  | unexpected r => exact .unexpected r
  | tooDeep hkind => exact .tooDeep hkind
  | string hkind h =>
      obtain ⟨s, hs⟩ := hsound.string hkind
      rw [hs] at h
      cases h
  | number hkind h =>
      obtain ⟨n, hn⟩ := hsound.number hkind
      obtain rfl | ⟨hnone, -⟩ := eq_of_numberOf_eq_error h
      · exact .outOfRange hkind
      · rw [hn] at hnone
        cases hnone
  | bool hkind h =>
      obtain ⟨b, hb⟩ := hsound.bool hkind
      rw [hb] at h
      cases h
  | null hkind h =>
      rw [hsound.null hkind] at h
      cases h

theorem refuse_of_finish {r : Reader} {last : Nat} (h : r.finish last = .error e) :
    ∃ r : Reader, e = r.refuse "end of input" (.point last) := by
  cases r with
  | done v => cases h
  | _ => exact ⟨_, (Except.error.inj h).symm⟩

theorem refuse_cases (r : Reader) (got : String) (span : Span) :
    r.refuse got span = .expectedValue got span
      ∨ ∃ wanted, r.refuse got span = .expected wanted got span := by
  cases r with
  | value outer => exact .inl rfl
  | _ => exact .inr ⟨_, rfl⟩

end Reader

namespace Value

variable {limit : Nat} {ts : List Token} {e : ReadError}

/-- Sound tokens are refused at one of them or at their end. -/
theorem refusal_of_ofTokens? (hsound : ∀ t ∈ ts, t.IsSound)
    (h : ofTokens? limit ts = .error e) :
    (∃ t ∈ ts, Refusal limit t e)
      ∨ ∃ r : Reader, e = r.refuse "end of input" (.point (endOf ts)) := by
  cases hrun : Reader.start.run limit ts with
  | ok r =>
      rw [ofTokens?, hrun] at h
      exact .inr (refuse_of_finish h)
  | error e' =>
      rw [ofTokens?, hrun] at h
      obtain rfl : e' = e := Except.error.inj h
      obtain ⟨before, t, behind, r, hts, -, hstep⟩ := exists_of_run_eq_error hrun
      have ht : t ∈ ts := by simp [hts]
      exact .inl ⟨t, ht, (Objection.of_step hstep).refusal (hsound t ht)⟩

theorem isSound_of_lex {text : String} (h : Token.lex text = .ok ts) : ∀ t ∈ ts, t.IsSound := by
  rw [Token.lex] at h
  split at h
  · cases h
    exact fun t => Token.isSound_of_mem_drain
  · cases h

/-- **The lexer and the reader agree on tokens.** The text of each token that the lexer yields reads
as its kind wants it. Where the tokens of a whole text are refused, it is because one of them or the
end of the text is not what comes next, because containers are nested too deep, or because a number
is out of range: never for an escape, a numeral or a word. -/
theorem ofTokens?_of_lexed (text : String) :
    (∀ t ∈ (Lexer.ofText text).drain.tokens,
      (t.kind = .string → ∃ s, stringOf t = .ok s)
      ∧ (t.kind = .number → ∃ n, Number.ofText? t.text.toList = some n)
      ∧ (t.kind = .bool → ∃ b, boolOf t = .ok b)
      ∧ (t.kind = .null → nullOf t = .ok ()))
    ∧ ∀ limit ts e, Token.lex text = .ok ts → ofTokens? limit ts = .error e →
      (∃ got span, e = .expectedValue got span)
      ∨ (∃ wanted got span, e = .expected wanted got span)
      ∨ (∃ span, e = .nestingTooDeep limit span)
      ∨ ∃ quoted span, e = .numberOutOfRange quoted span := by
  have hrefused : ∀ (r : Reader) (got : String) (span : Span),
      (∃ got' span', r.refuse got span = .expectedValue got' span')
        ∨ ∃ wanted got' span', r.refuse got span = .expected wanted got' span' := by
    intro r got span
    obtain h | ⟨wanted, h⟩ := r.refuse_cases got span
    · exact .inl ⟨got, span, h⟩
    · exact .inr ⟨wanted, got, span, h⟩
  refine ⟨fun t ht => ?_, fun limit ts e hlex h => ?_⟩
  · have hsound := Token.isSound_of_mem_drain ht
    exact ⟨hsound.string, hsound.number, hsound.bool, hsound.null⟩
  · obtain ⟨t, -, hrefusal⟩ | ⟨r, rfl⟩ := refusal_of_ofTokens? (isSound_of_lex hlex) h
    · cases hrefusal with
      | unexpected r => exact (hrefused r t.display t.span).imp_right .inl
      | tooDeep _ => exact .inr (.inr (.inl ⟨t.span, rfl⟩))
      | outOfRange _ => exact .inr (.inr (.inr ⟨t.text, t.span, rfl⟩))
    · exact (hrefused r _ _).imp_right .inl

/-- The tokens of an array of a number that is out of range and a string with half a surrogate
pair. -/
def outOfRange : List Token :=
  [⟨.arrayOpen, "[", ⟨0, 1⟩⟩, ⟨.number, "1e999", ⟨1, 6⟩⟩, ⟨.comma, ",", ⟨6, 7⟩⟩,
    ⟨.string, "\\ud800", ⟨7, 15⟩⟩, ⟨.arrayClose, "]", ⟨15, 16⟩⟩]

theorem ofTokens?_of_lexed_outOfRange :
    Token.lex "[1e999,\"\\ud800\"]" = .ok outOfRange
    ∧ ofTokens? 1 outOfRange = .error (.numberOutOfRange "1e999" ⟨1, 6⟩)
    ∧ (∃ n, Number.ofText? "1e999".toList = some n)
    ∧ ∃ s, stringOf ⟨.string, "\\ud800", ⟨7, 15⟩⟩ = .ok s := by
  have htokens : (Lexer.ofText "[1e999,\"\\ud800\"]").drain.tokens = outOfRange := by
    decide +kernel
  have hlex : Token.lex "[1e999,\"\\ud800\"]" = .ok outOfRange := by decide +kernel
  obtain ⟨hsound, -⟩ := ofTokens?_of_lexed "[1e999,\"\\ud800\"]"
  rw [htokens] at hsound
  obtain ⟨-, hnumber, -⟩ := hsound ⟨.number, "1e999", ⟨1, 6⟩⟩ (by decide)
  obtain ⟨hstring, -⟩ := hsound ⟨.string, "\\ud800", ⟨7, 15⟩⟩ (by decide)
  exact ⟨hlex, rfl, hnumber rfl, hstring rfl⟩

end Value

end JsonAxes
