import JsonAxes.Proofs.Token.Tiling
import JsonAxes.Proofs.Value.Refusal

/-!
# Where the reader gives up

The reader gives up at the first token that cannot be continued. Whatever state it has come to,
some tokens take it from there to a value (`Reader.completion`), within the nesting limit, since
they open no container. So tokens can be continued exactly if the reader takes them all
(`Value.exists_ofTokens?_append_iff`), and an error at a token means that those in front of it can
be continued while with that token nothing helps.

The error points at the token by its span. Of the tokens of a text no two have one span, and no
span is empty like that of the end of the text.
-/

set_option autoImplicit false

namespace JsonAxes

/-- A token of a lexeme, wherever it stands. -/
def Lexeme.token (x : Lexeme) : Token := ⟨x.kind, String.ofList x.text, .point 0⟩

namespace Reader

open Token

variable {limit : Nat} {r : Reader} {t : Token} {ts : List Token} {e : ReadError}

/-! ## Ways to a value -/

/-- What closes some open containers, innermost first. -/
def closing : List OpenContainer → List Lexeme
  | [] => []
  | .array _ :: outer => .arrayClose :: closing outer
  | .object _ _ :: outer => .objectClose :: closing outer

/-- What takes a reader to a value. -/
def completion : Reader → List Lexeme
  | value outer => .null :: closing outer
  | firstElement outer => .arrayClose :: closing outer
  | afterElement _ outer => .arrayClose :: closing outer
  | firstKey outer => .objectClose :: closing outer
  | nextKey _ outer => .string [] .nil :: .colon :: .null :: .objectClose :: closing outer
  | colon _ _ outer => .colon :: .null :: .objectClose :: closing outer
  | afterMember _ outer => .objectClose :: closing outer
  | done _ => []

/-- Behind a complete value, closing the containers around it is enough. -/
theorem run_closing (v : Value) (outer : List OpenContainer) :
    ∃ w, (complete v outer).run limit ((closing outer).map Lexeme.token) = .ok (.done w) := by
  induction outer generalizing v with
  | nil => exact ⟨v, rfl⟩
  | cons o outer ih =>
      cases o with
      | array before => exact ih (.array (v :: before).reverse)
      | object before key => exact ih (.object (before.set key v))

/-- An empty key, and behind it a colon. -/
theorem step_emptyKey (members : Members Value) (outer : List OpenContainer) :
    (nextKey members outer).step limit (Lexeme.string [] .nil).token
      = .ok (.colon members "" outer) := by
  have hkey : stringOf (Lexeme.string [] .nil).token = .ok "" := by
    show (Text.unescape 1 (String.ofList []).toList).map String.ofList = .ok ""
    rw [String.toList_ofList, Text.unescape_nil]
    rfl
  show (stringOf (Lexeme.string [] .nil).token).map (fun key => colon members key outer) = _
  rw [hkey]
  rfl

/-- Every state of the reader has a way to a value. -/
theorem run_completion (r : Reader) :
    ∃ w, r.run limit (r.completion.map Lexeme.token) = .ok (.done w) := by
  cases r with
  | value outer => exact run_closing .null outer
  | firstElement outer => exact run_closing (.array []) outer
  | afterElement elements outer => exact run_closing (.array elements.reverse) outer
  | firstKey outer => exact run_closing (.object []) outer
  | nextKey members outer =>
      rw [completion, List.map_cons, run_cons, step_emptyKey]
      exact run_closing (.object (members.set "" .null)) outer
  | colon members key outer => exact run_closing (.object (members.set key .null)) outer
  | afterMember members outer => exact run_closing (.object members) outer
  | done v => exact ⟨v, rfl⟩

/-! ## Errors -/

/-- A run fails at one of its tokens, in the state that those in front of it lead to. -/
theorem exists_of_run_eq_error (h : r.run limit ts = .error e) :
    ∃ before t behind r', ts = before ++ t :: behind ∧ r.run limit before = .ok r'
      ∧ r'.step limit t = .error e := by
  induction ts generalizing r with
  | nil => cases h
  | cons t ts ih =>
      rw [run_cons] at h
      cases hstep : r.step limit t with
      | error e' =>
          rw [hstep] at h
          cases h
          exact ⟨[], t, ts, r, rfl, rfl, hstep⟩
      | ok r' =>
          rw [hstep] at h
          obtain ⟨before, u, behind, r'', rfl, hrun, hu⟩ := ih h
          refine ⟨t :: before, u, behind, r'', rfl, ?_, hu⟩
          rw [run_cons, hstep]
          exact hrun

theorem span?_refuse (r : Reader) (got : String) (span : Span) :
    (r.refuse got span).span? = some span := by
  cases r <;> rfl

theorem span?_of_stringOf (hstring : Text.WellEscaped t.text.toList) (h : stringOf t = .error e) :
    e.span? = some t.span := by
  obtain ⟨s, hs⟩ := exists_stringOf_iff.mpr hstring
  rw [hs] at h
  cases h

theorem span?_of_numberOf (h : numberOf t = .error e) : e.span? = some t.span := by
  obtain rfl | ⟨-, rfl⟩ := eq_of_numberOf_eq_error h
  · rfl
  · rfl

theorem span?_of_boolOf (h : boolOf t = .error e) : e.span? = some t.span := by
  unfold boolOf at h
  split at h
  · cases h
  · split at h
    · cases h
    · cases h
      rfl

theorem span?_of_nullOf (h : nullOf t = .error e) : e.span? = some t.span := by
  unfold nullOf at h
  split at h
  · cases h
  · cases h
    rfl

/-- An error of taking a token points at that token, if the escapes in it are well formed. -/
theorem span?_of_step (hstring : t.kind = .string → Text.WellEscaped t.text.toList)
    (h : r.step limit t = .error e) : e.span? = some t.span := by
  cases Objection.of_step h with
  | unexpected r => exact span?_refuse r t.display t.span
  | tooDeep _ => rfl
  | string hk h => exact span?_of_stringOf (hstring hk) h
  | number _ h => exact span?_of_numberOf h
  | bool _ h => exact span?_of_boolOf h
  | null _ h => exact span?_of_nullOf h

/-- An error of missing something points behind the last token. -/
theorem span?_of_finish {last : Nat} (h : r.finish last = .error e) :
    e.span? = some (.point last) := by
  cases r with
  | done v => cases h
  | _ =>
      obtain rfl := Except.error.inj h
      exact span?_refuse _ _ _

end Reader

/-! ## Continuations -/

namespace Value

open Token

variable {limit : Nat} {ts : List Token} {e : ReadError}

/-- Whether some tokens can be continued, by lexemes, to tokens of a value. -/
def Continues (limit : Nat) (ts : List Token) : Prop :=
  ∃ (xs : List Lexeme) (v : Value), ofTokens? limit (ts ++ xs.map Lexeme.token) = .ok v

/-- Tokens that the reader takes can be continued. -/
theorem continues_of_run {r : Reader} (h : Reader.start.run limit ts = .ok r) :
    Continues limit ts := by
  obtain ⟨v, hv⟩ : ∃ v, r.run limit (r.completion.map Lexeme.token) = .ok (.done v) :=
    r.run_completion
  refine ⟨r.completion, v, ?_⟩
  rw [ofTokens?, Reader.run_append, h]
  show (r.run limit (r.completion.map Lexeme.token)).bind _ = _
  rw [hv]
  rfl

/-- Nothing helps behind tokens at which the reader fails. -/
theorem ofTokens?_append_of_run (h : Reader.start.run limit ts = .error e) (us : List Token) :
    ofTokens? limit (ts ++ us) = .error e := by
  rw [ofTokens?, Reader.run_append, h]
  rfl

/-- Tokens can be continued exactly if the reader takes them. -/
theorem exists_ofTokens?_append_iff (limit : Nat) (ts : List Token) :
    (∃ us v, ofTokens? limit (ts ++ us) = .ok v) ↔ ∃ r, Reader.start.run limit ts = .ok r := by
  constructor
  · rintro ⟨us, v, h⟩
    cases hrun : Reader.start.run limit ts with
    | ok r => exact ⟨r, rfl⟩
    | error e =>
        rw [ofTokens?_append_of_run hrun] at h
        cases h
  · rintro ⟨r, hrun⟩
    obtain ⟨xs, v, h⟩ := continues_of_run hrun
    exact ⟨xs.map Lexeme.token, v, h⟩

/-- The end of some tokens, at which whatever is missing is missed. -/
def endOf (ts : List Token) : Nat := (ts.getLast?.map (·.span.hi)).getD 0

/-- The reader gives up at a token behind which nothing helps, or at the end, where something
would. -/
theorem exists_of_ofTokens?_eq_error
    (hstring : ∀ t ∈ ts, t.kind = .string → Text.WellEscaped t.text.toList)
    (h : ofTokens? limit ts = .error e) :
    (∃ before t behind, ts = before ++ t :: behind ∧ e.span? = some t.span
      ∧ Continues limit before ∧ ∀ us v, ofTokens? limit ((before ++ [t]) ++ us) ≠ .ok v)
    ∨ (e.span? = some (.point (endOf ts)) ∧ Continues limit ts) := by
  cases hrun : Reader.start.run limit ts with
  | ok r =>
      rw [ofTokens?, hrun] at h
      exact .inr ⟨Reader.span?_of_finish h, continues_of_run hrun⟩
  | error e' =>
      rw [ofTokens?, hrun] at h
      obtain rfl : e' = e := Except.error.inj h
      obtain ⟨before, t, behind, r, hts, hbefore, hstep⟩ := Reader.exists_of_run_eq_error hrun
      have ht : t ∈ ts := by simp [hts]
      have hrefused : Reader.start.run limit (before ++ [t]) = .error e' := by
        rw [Reader.run_append, hbefore]
        show (r.step limit t).bind _ = _
        rw [hstep]
        rfl
      refine .inl ⟨before, t, behind, hts, Reader.span?_of_step (hstring t ht) hstep,
        continues_of_run hbefore, ?_⟩
      intro us v hv
      rw [ofTokens?_append_of_run hrefused] at hv
      cases hv

/-! ## Errors by their spans -/

theorem tiles_of_lex {text : String} (h : Token.lex text = .ok ts) :
    ∃ last, Lexer.Tiles (Lexer.ofText text) ts last := by
  obtain ⟨last, htiles, -⟩ := Lexer.exists_tiles (Lexer.ofText text)
  rw [Token.lex] at h
  split at h
  · rw [Except.ok.inj h] at htiles
    exact ⟨last, htiles⟩
  · cases h

/-- Of tokens that tile a text no two have one span. -/
theorem eq_of_span_eq {l last : Lexer} (h : Lexer.Tiles l ts last) {i j : Nat}
    (hi : i < ts.length) (hj : j < ts.length) (hspan : ts[i].span = ts[j].span) : i = j := by
  have hlt : ∀ k (hk : k < ts.length), ts[k].span.lo < ts[k].span.hi :=
    fun k hk => (h.bounds (List.getElem_mem hk)).2
  have hordered := List.pairwise_iff_getElem.mp h.pairwise
  rcases Nat.lt_trichotomy i j with hij | hij | hij
  · have hle : ts[i].span.hi ≤ ts[j].span.lo := hordered i j hi hj hij
    rw [← hspan] at hle
    exact absurd hle (Nat.not_le_of_lt (hlt i hi))
  · exact hij
  · have hle : ts[j].span.hi ≤ ts[i].span.lo := hordered j i hj hi hij
    rw [hspan] at hle
    exact absurd hle (Nat.not_le_of_lt (hlt j hj))

/-- **Errors are reported at the first token that cannot be continued.** Where the tokens of a text
are refused, the error points at one of them or at their end. If it points at one, those in front
of it can be continued to a value, but with it they cannot; if it points at the end, all of them
can. -/
theorem ofTokens?_gives_up (text : String) (limit : Nat) (ts : List Token) (e : ReadError)
    (hlex : Token.lex text = .ok ts) (h : ofTokens? limit ts = .error e) :
    ((∃ i, ∃ hi : i < ts.length, e.span? = some ts[i].span)
      ∨ e.span? = some (.point (endOf ts)))
    ∧ (∀ i, ∀ hi : i < ts.length, e.span? = some ts[i].span →
      Continues limit (ts.take i) ∧ ∀ us v, ofTokens? limit (ts.take (i + 1) ++ us) ≠ .ok v)
    ∧ (e.span? = some (.point (endOf ts)) → Continues limit ts) := by
  obtain ⟨last, htiles⟩ := tiles_of_lex hlex
  have hpoint : ∀ t ∈ ts, ∀ offset, t.span ≠ .point offset := by
    intro t ht offset hspan
    have hlt := (htiles.bounds ht).2
    rw [hspan] at hlt
    exact Nat.lt_irrefl offset hlt
  have hstring : ∀ t ∈ ts, t.kind = .string → Text.WellEscaped t.text.toList := by
    intro t ht hk
    obtain ⟨piece, hwritten, -⟩ := htiles.exists_covers ht
    exact hwritten.wellEscaped hk
  rcases exists_of_ofTokens?_eq_error hstring h with
    ⟨before, t, behind, hts, hspan, hbefore, hrefused⟩ | ⟨hend, hcontinues⟩
  · have hlength : before.length < ts.length := by
      rw [hts, List.length_append, List.length_cons]
      omega
    have ht : ts[before.length] = t := by simp [hts]
    refine ⟨.inl ⟨before.length, hlength, by rw [ht, hspan]⟩, ?_, ?_⟩
    · intro i hi hi'
      have heq : i = before.length := by
        apply eq_of_span_eq htiles hi hlength
        rw [ht]
        exact Option.some.inj (hi'.symm.trans hspan)
      have htake : ts.take (before.length + 1) = before ++ [t] := by
        rw [hts, List.take_length_add_append]
        rfl
      rw [heq, htake, hts, List.take_left]
      exact ⟨hbefore, hrefused⟩
    · intro hend
      rw [hspan] at hend
      exact absurd (Option.some.inj hend) (hpoint t (by simp [hts]) _)
  · refine ⟨.inr hend, ?_, fun _ => hcontinues⟩
    intro i hi hspan
    rw [hend] at hspan
    exact absurd (Option.some.inj hspan).symm (hpoint _ (List.getElem_mem hi) _)

/-- The tokens of an array with a comma behind its last element. -/
def trailingComma : List Token :=
  [⟨.arrayOpen, "[", ⟨0, 1⟩⟩, ⟨.null, "null", ⟨1, 5⟩⟩, ⟨.comma, ",", ⟨5, 6⟩⟩,
    ⟨.arrayClose, "]", ⟨6, 7⟩⟩]

theorem ofTokens?_gives_up_trailingComma :
    Token.lex "[null,]" = .ok trailingComma
    ∧ ofTokens? 1 trailingComma = .error (.expectedValue "`]`" ⟨6, 7⟩)
    ∧ Continues 1 (trailingComma.take 3) ∧ ∀ us v, ofTokens? 1 (trailingComma ++ us) ≠ .ok v := by
  have hlex : Token.lex "[null,]" = .ok trailingComma := by decide +kernel
  have herror : ofTokens? 1 trailingComma = .error (.expectedValue "`]`" ⟨6, 7⟩) := rfl
  obtain ⟨-, hgives, -⟩ := ofTokens?_gives_up "[null,]" 1 trailingComma _ hlex herror
  exact ⟨hlex, herror, hgives 3 (by decide) rfl⟩

end Value

end JsonAxes
