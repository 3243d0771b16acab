import JsonAxes.Proofs.Token.Laid
import JsonAxes.Value.Reader

/-!
# Values of canonical texts

Tokens that agree are read as the same value (`Reader.run_agrees`), and no value is read where one
of the tokens is of no use. Since a text and its canonical form are cut into tokens that agree, or
both break off, they have the same value or none (`Value.ofCanonical?_form`).
-/

set_option autoImplicit false

namespace JsonAxes

namespace Reader

open Token

variable {t u : Token}

/-! ## Tokens that agree -/

theorem stringOf_agrees (h : t.Agrees u) (hkind : t.kind = .string) :
    Alike (· = ·) (stringOf t) (stringOf u) := by
  have hiff := h.string hkind (t.span.lo + 1) (u.span.lo + 1)
  unfold stringOf
  cases ht : Text.unescape (t.span.lo + 1) t.text.toList with
  | ok s =>
      rw [(hiff s).mp ht]
      exact .ok rfl
  | error e =>
      cases hu : Text.unescape (u.span.lo + 1) u.text.toList with
      | ok s =>
          rw [(hiff s).mpr hu] at ht
          cases ht
      | error e' => exact .error e e'

theorem numberOf_agrees (h : t.text = u.text) : Alike (· = ·) (numberOf t) (numberOf u) := by
  unfold numberOf
  rw [h]
  split
  · exact .error _ _
  · split
    · exact .ok rfl
    · exact .error _ _

theorem boolOf_agrees (h : t.text = u.text) : Alike (· = ·) (boolOf t) (boolOf u) := by
  unfold boolOf
  rw [h]
  split
  · exact .ok rfl
  · split
    · exact .ok rfl
    · exact .error _ _

theorem nullOf_agrees (h : t.text = u.text) : Alike (· = ·) (nullOf t) (nullOf u) := by
  unfold nullOf
  rw [h]
  split
  · exact .ok rfl
  · exact .error _ _

theorem enter_agrees (limit : Nat) (t u : Token) (outer : List OpenContainer) (inside : Reader) :
    Alike (· = ·) (enter limit t outer inside) (enter limit u outer inside) := by
  unfold enter
  split
  · exact .ok rfl
  · exact .error _ _

theorem alike_map {α β δ ε : Type} {x : Except δ α} {y : Except ε α} (h : Alike (· = ·) x y)
    (f : α → β) : Alike (· = ·) (x.map f) (y.map f) := by
  cases h with
  | ok h =>
      rw [h]
      exact .ok rfl
  | error d e => exact .error d e

/-- Tokens that agree begin the same values. -/
theorem beginValue?_agrees (limit : Nat) (h : t.Agrees u) (outer : List OpenContainer)
    {e e' : ReadError} :
    Alike (· = ·) ((beginValue? limit t outer).getD (.error e))
      ((beginValue? limit u outer).getD (.error e')) := by
  have htext : ∀ {kind : Kind}, t.kind = kind → kind ≠ .string → t.text = u.text := by
    rintro kind rfl hkind
    exact h.text hkind
  have hkind : u.kind = t.kind := h.kind.symm
  unfold beginValue?
  rw [hkind]
  cases ht : t.kind with
  | string => exact alike_map (stringOf_agrees h ht) _
  | number => exact alike_map (numberOf_agrees (htext ht (by decide))) _
  | bool => exact alike_map (boolOf_agrees (htext ht (by decide))) _
  | null => exact alike_map (nullOf_agrees (htext ht (by decide))) _
  | objectOpen => exact enter_agrees limit t u outer _
  | arrayOpen => exact enter_agrees limit t u outer _
  | objectClose | arrayClose | colon | comma | unknown => exact .error _ _

/-- Tokens that agree are taken alike. -/
theorem step_agrees (limit : Nat) (r : Reader) (h : t.Agrees u) :
    Alike (· = ·) (r.step limit t) (r.step limit u) := by
  have hkind : u.kind = t.kind := h.kind.symm
  -- what the reader waits for decides whether it asks for more than the kind of the token
  cases r with
  | value outer => exact beginValue?_agrees limit h outer
  | firstElement outer =>
      simp only [Reader.step, hkind]
      split
      · exact .ok rfl
      · exact beginValue?_agrees limit h _
  | afterElement elements outer =>
      simp only [Reader.step, hkind]
      split
      · exact .ok rfl
      · split
        · exact .ok rfl
        · exact .error _ _
  | firstKey outer =>
      simp only [Reader.step, hkind]
      split
      · next hstring => exact alike_map (stringOf_agrees h hstring) _
      · split
        · exact .ok rfl
        · exact .error _ _
  | nextKey members outer =>
      simp only [Reader.step, hkind]
      split
      · next hstring => exact alike_map (stringOf_agrees h hstring) _
      · exact .error _ _
  | colon members key outer =>
      simp only [Reader.step, hkind]
      split
      · exact .ok rfl
      · exact .error _ _
  | afterMember members outer =>
      simp only [Reader.step, hkind]
      split
      · exact .ok rfl
      · split
        · exact .ok rfl
        · exact .error _ _
  | done v => exact .error _ _

theorem run_agrees (limit : Nat) (r : Reader) {ts us : List Token}
    (h : List.Forall₂ Agrees ts us) : Alike (· = ·) (r.run limit ts) (r.run limit us) := by
  induction h generalizing r with
  | nil => exact .ok rfl
  | cons h _ ih =>
      rw [run_cons, run_cons]
      refine (step_agrees limit r h).bind ?_
      rintro r' _ rfl
      exact ih r'

theorem finish_alike (r : Reader) (last last' : Nat) :
    Alike (· = ·) (r.finish last) (r.finish last') := by
  cases r with
  | done v => exact .ok rfl
  | value _ | firstElement _ | afterElement _ _ | firstKey _ | nextKey _ _ | colon _ _ _
  | afterMember _ _ => exact .error _ _

/-! ## Tokens of no use -/

/-- A character that begins no token is taken nowhere. -/
theorem exists_step_eq_error (limit : Nat) (r : Reader) (h : t.kind = .unknown) :
    ∃ e, r.step limit t = .error e := by
  cases r with
  | value _ | firstElement _ | afterElement _ _ | firstKey _ | nextKey _ _ | colon _ _ _
  | afterMember _ _ =>
      simp only [Reader.step, beginValue?, h]
      exact ⟨_, rfl⟩
  | done v => exact ⟨_, rfl⟩

theorem exists_run_eq_error (limit : Nat) (r : Reader) {ts : List Token}
    (h : ∃ t ∈ ts, t.kind = .unknown) : ∃ e, r.run limit ts = .error e := by
  induction ts generalizing r with
  | nil =>
      obtain ⟨t, ht, -⟩ := h
      cases ht
  | cons t ts ih =>
      rw [run_cons]
      cases hstep : r.step limit t with
      | error e => exact ⟨e, rfl⟩
      | ok r' =>
          apply ih r'
          obtain ⟨u, hu, hkind⟩ := h
          rcases List.mem_cons.mp hu with rfl | hu
          · obtain ⟨e, he⟩ := exists_step_eq_error limit r hkind
            rw [he] at hstep
            cases hstep
          · exact ⟨u, hu, hkind⟩

end Reader

namespace Value

open Token Lexer

/-- Tokens that agree are read as the same value. -/
theorem ofTokens?_agrees (limit : Nat) {ts us : List Token} (h : List.Forall₂ Agrees ts us) :
    Alike (· = ·) (ofTokens? limit ts) (ofTokens? limit us) := by
  refine (Reader.run_agrees limit .start h).bind ?_
  rintro r _ rfl
  exact r.finish_alike _ _

theorem lex_of_drain {text : String} {ts : List Token} {l : Lexer}
    (h : (Lexer.ofText text).drain = ⟨ts, none, l⟩) : Token.lex text = .ok ts := by
  rw [Token.lex, h]

theorem exists_ofCanonical?_eq_error {text : String} (h : (Lexer.ofText text).drain.IsBroken)
    (limit : Nat) : ∃ e, ofCanonical? limit text = .error e := by
  cases hdrain : (Lexer.ofText text).drain with
  | mk ts error? l =>
      rw [hdrain] at h
      cases error? with
      | some e =>
          refine ⟨e, ?_⟩
          rw [ofCanonical?, Token.lex, hdrain]
          rfl
      | none =>
          have hunknown : ∃ t ∈ ts, t.kind = .unknown := h.resolve_left (absurd rfl)
          obtain ⟨e, he⟩ := Reader.exists_run_eq_error limit .start hunknown
          refine ⟨e, ?_⟩
          rw [ofCanonical?, lex_of_drain hdrain]
          show ofTokens? limit ts = _
          rw [ofTokens?, he]
          rfl

/-- A text that can be escaped and its canonical form have the same value, or none. -/
theorem ofCanonical?_form {text : String} (h : Canonical.Escapable false text.toList)
    (limit : Nat) :
    Alike (· = ·) (ofCanonical? limit text)
      (ofCanonical? limit (String.ofList (Canonical.form text.toList))) := by
  have hdrain : Lexer.Output.Corresponds (Lexer.ofText text).drain
      (Lexer.ofText (String.ofList (Canonical.form text.toList))).drain := by
    rw [Lexer.ofText, Lexer.ofText, String.toList_ofList]
    exact Lexer.drain_form h 0 0
  generalize hx : (Lexer.ofText text).drain = x at hdrain
  generalize hy : (Lexer.ofText _).drain = y at hdrain
  cases hdrain with
  | broken hbroken hbroken' =>
      rw [← hx] at hbroken
      rw [← hy] at hbroken'
      obtain ⟨e, he⟩ := exists_ofCanonical?_eq_error hbroken limit
      obtain ⟨e', he'⟩ := exists_ofCanonical?_eq_error hbroken' limit
      rw [he, he']
      exact .error e e'
  | complete hagrees =>
      rw [ofCanonical?, ofCanonical?, lex_of_drain hx, lex_of_drain hy]
      exact ofTokens?_agrees limit hagrees

/-! ## The tokens behind a value -/

/-- A text that has a value is laid out in tokens. -/
theorem exists_laid_of_ofCanonical? {limit : Nat} {text : String} {v : Value}
    (h : ofCanonical? limit text = .ok v) :
    ∃ ts, Token.lex text = .ok ts ∧ ofTokens? limit ts = .ok v ∧ Laid 0 text.toList ts := by
  cases hdrain : (Lexer.ofText text).drain with
  | mk ts error? last =>
      cases error? with
      | some e =>
          rw [ofCanonical?, Token.lex, hdrain] at h
          cases h
      | none =>
          have hlex := lex_of_drain hdrain
          rw [ofCanonical?, hlex] at h
          refine ⟨ts, hlex, h, laid_of_drain hdrain ?_⟩
          intro t ht hkind
          obtain ⟨e, he⟩ := Reader.exists_run_eq_error limit .start ⟨t, ht, hkind⟩
          have hread : ofTokens? limit ts = .ok v := h
          rw [ofTokens?, he] at hread
          cases hread

theorem eq_ok_iff_of_alike {α δ ε : Type} {x : Except δ α} {y : Except ε α}
    (h : Alike (· = ·) x y) (a : α) : x = .ok a ↔ y = .ok a := by
  cases h with
  | ok h => rw [h, Except.ok.injEq, Except.ok.injEq]
  | error d e => exact ⟨nofun, nofun⟩

/-- What a text yields, wherever the tokens stand, is read as its value. -/
theorem ofCanonical?_of_yields {limit : Nat} {cs : List Char} {ts : List Token} {v : Value}
    (h : Yields cs ts) (hread : ofTokens? limit ts = .ok v) :
    ofCanonical? limit (String.ofList cs) = .ok v := by
  obtain ⟨us, hlex, hagrees⟩ := h.exists_lex
  rw [ofCanonical?, hlex]
  exact (eq_ok_iff_of_alike (ofTokens?_agrees limit hagrees) v).mp hread

/-! ## Texts and their canonical forms -/

/-- A text has a value if it can be escaped and has that value as it stands. -/
theorem ofText?_eq_ok_iff (limit : Nat) (text : String) (v : Value) :
    ofText? limit text = .ok v
      ↔ Canonical.Escapable false text.toList ∧ ofCanonical? limit text = .ok v := by
  by_cases h : Canonical.Escapable false text.toList
  · have hcanonical := (Canonical.ofText_eq_ok_iff text _).mpr ⟨h, rfl⟩
    have hread : ofText? limit text
        = ofCanonical? limit (String.ofList (Canonical.form text.toList)) := by
      rw [ofText?, hcanonical]
      rfl
    rw [hread, ← eq_ok_iff_of_alike (ofCanonical?_form h limit) v]
    exact (and_iff_right h).symm
  · obtain ⟨escape, span, herror⟩ := Canonical.exists_ofText_eq_error h
    rw [ofText?, herror]
    constructor
    · rintro ⟨⟩
    · rintro ⟨hescapable, -⟩
      exact absurd hescapable h

/-- **Canonical form keeps the meaning of a text.** Where a text has a canonical form, that form
and the text as it stands, with whatever beyond ASCII is in it, are read as the same value, however
deep values may nest, or neither is read as any. -/
theorem ofCanonical?_canonical {text canonical : String}
    (h : Canonical.ofText text = .ok canonical) (limit : Nat) :
    (∃ v, ofCanonical? limit canonical = .ok v ∧ ofCanonical? limit text = .ok v)
    ∨ ∃ e e', ofCanonical? limit canonical = .error e ∧ ofCanonical? limit text = .error e' := by
  obtain ⟨hescapable, rfl⟩ := (Canonical.ofText_eq_ok_iff text canonical).mp h
  have hform := ofCanonical?_form hescapable limit
  cases htext : ofCanonical? limit text with
  | ok v =>
      rw [htext] at hform
      generalize ofCanonical? limit _ = y at hform ⊢
      cases hform with
      | ok h => exact .inl ⟨v, by rw [← h], rfl⟩
  | error e =>
      rw [htext] at hform
      generalize ofCanonical? limit _ = y at hform ⊢
      cases hform with
      | error _ e' => exact .inr ⟨e', e, rfl, rfl⟩

/-- A text with characters beyond ASCII in a key, in a string and in comments. -/
theorem ofCanonical?_canonical_beyondAscii :
    Canonical.ofText "\x7b\"é\": \"\\ud83d😀\" /* é */ \x7d // ∎"
      = .ok "\x7b\"\\u00e9\": \"\\ud83d\\ud83d\\ude00\" /* \\u00e9 */ \x7d // \\u220e"
    ∧ ((∃ v, ofCanonical? 1
          "\x7b\"\\u00e9\": \"\\ud83d\\ud83d\\ude00\" /* \\u00e9 */ \x7d // \\u220e" = .ok v
        ∧ ofCanonical? 1 "\x7b\"é\": \"\\ud83d😀\" /* é */ \x7d // ∎" = .ok v)
      ∨ ∃ e e', ofCanonical? 1
          "\x7b\"\\u00e9\": \"\\ud83d\\ud83d\\ude00\" /* \\u00e9 */ \x7d // \\u220e" = .error e
        ∧ ofCanonical? 1 "\x7b\"é\": \"\\ud83d😀\" /* é */ \x7d // ∎" = .error e') := by
  have h : Canonical.ofText "\x7b\"é\": \"\\ud83d😀\" /* é */ \x7d // ∎"
      = .ok "\x7b\"\\u00e9\": \"\\ud83d\\ud83d\\ude00\" /* \\u00e9 */ \x7d // \\u220e" := by
    decide
  exact ⟨h, ofCanonical?_canonical h 1⟩

end Value

end JsonAxes
