import JsonAxes.Proofs.Standard.Texts
import JsonAxes.Proofs.Text.Escapable
import JsonAxes.Proofs.Token.Extent

/-!
# Standard string literals

The body of a standard string literal is a whole piece for the lexer (`Standard.isPiece_body`), its
escapes resolve to the text that it stands for (`Standard.unescape_body`), and it has a canonical
form, whatever characters it holds (`Standard.isClosed_literal`).
-/

set_option autoImplicit false

namespace JsonAxes.Standard

/-! ## Escapes by number -/

namespace Digits

variable (u : Digits) (rest : List Char)

theorem hexUnit?_append : Text.hexUnit? (u.chars ++ rest) = some (u.unit, rest) := by
  obtain ⟨a, b, c, d, ha, hb, hc, hd⟩ := u
  simp [chars, unit, Text.hexUnit?, ha, hb, hc, hd]

theorem lowEscape?_append : Text.lowEscape? ((Part.unit u).text ++ rest)
    = if Text.isLowSurrogate u.unit then some (u.unit, rest) else none := by
  show (Text.hexUnit? (u.chars ++ rest)).filter _ = _
  rw [u.hexUnit?_append]
  exact Option.filter_some

end Digits

theorem body_cons (p : Part) (ps : List Part) : body (p :: ps) = p.text ++ body ps :=
  List.flatMap_cons

theorem ne_of_simpleEscape? {e c : Char} (h : Text.simpleEscape? e = some c) : e ≠ 'u' := by
  rintro rfl
  cases h

/-- Only another escape by number is the second half of a pair. -/
theorem lowEscape?_body_eq_none {ps : List Part} (h : ∀ v more, ps ≠ .unit v :: more)
    {rest : List Char} (hrest : ∀ more, rest ≠ '\\' :: more) :
    Text.lowEscape? (body ps ++ rest) = none := by
  apply Canonical.lowEscape?_of_ne
  intro more heq
  cases ps with
  | nil => exact hrest _ heq
  | cons p ps =>
      cases p with
      | plain c hc => exact hc.2.2 (List.cons.inj heq).1
      | letter e c he => exact ne_of_simpleEscape? he (List.cons.inj (List.cons.inj heq).2).1
      | unit v => exact h v ps rfl

/-- What stands behind an escape by number, if that is not the first half of a pair. -/
theorem lowEscape?_body_of_not_isPair {u v : Digits} (h : ¬ isPair u v = true)
    (hhigh : Text.isHighSurrogate u.unit = true) (ps : List Part) (rest : List Char) :
    Text.lowEscape? (body (.unit v :: ps) ++ rest) = none := by
  rw [body_cons, List.append_assoc, v.lowEscape?_append]
  apply if_neg
  intro hlow
  exact h (by rw [isPair, hhigh, hlow]; rfl)

theorem unitChar_of_isPair {u v : Digits} (h : isPair u v = true) (ps : List Part)
    (rest : List Char) : Text.unitChar u.unit (body (.unit v :: ps) ++ rest)
      = (charOf (Text.pairCode u.unit v.unit), 2 * Text.unitEscapeLength, body ps ++ rest) := by
  rw [isPair, Bool.and_eq_true] at h
  rw [body_cons, List.append_assoc, Text.unitChar, if_pos h.1, v.lowEscape?_append, if_pos h.2]
  rfl

theorem unitChar_alone {u : Digits} {rest : List Char}
    (h : Text.isHighSurrogate u.unit = true → Text.lowEscape? rest = none) :
    Text.unitChar u.unit rest = (charOf u.unit, Text.unitEscapeLength, rest) := by
  unfold Text.unitChar
  split
  · next hhigh =>
    rw [h hhigh, charOf, Text.charOfCode?_of_isHighSurrogate hhigh]
    rfl
  · rfl

/-! ## Canonical form -/

/-- A text that has a canonical form and leaves no escape begun. -/
structure IsClosed (cs : List Char) : Prop where
  escapable : Canonical.Escapable false cs
  begun : Canonical.begun false cs = false

theorem IsClosed.append {as bs : List Char} (ha : IsClosed as) (hb : IsClosed bs) :
    IsClosed (as ++ bs) := by
  constructor
  · rw [Canonical.escapable_append, ha.begun]
    exact ⟨ha.escapable, hb.escapable⟩
  · exact Canonical.begun_append_of_not ha.begun hb.begun

/-- Text without a backslash can be escaped, whatever is in it. -/
theorem isClosed_of_notMem {cs : List Char} (h : '\\' ∉ cs) : IsClosed cs := by
  refine ⟨?_, Canonical.begun_of_notMem h⟩
  induction cs with
  | nil => trivial
  | cons c cs ih =>
      rw [List.mem_cons, not_or] at h
      refine ⟨.inr rfl, ?_⟩
      rw [beq_false_of_ne (Ne.symm h.1), Bool.false_and]
      exact ih h.2

theorem isClosed_escape {e : Char} (h : Canonical.isCanonical e = true) : IsClosed ['\\', e] := by
  refine ⟨⟨.inl rfl, .inl h, trivial⟩, ?_⟩
  show (e == '\\' && !true) = false
  rw [Bool.not_true, Bool.and_false]

theorem isClosed_text (p : Part) : IsClosed p.text := by
  cases p with
  | plain c h =>
      apply isClosed_of_notMem
      intro hmem
      exact h.2.2 (List.mem_singleton.mp hmem).symm
  | letter e c h =>
      have hall : ∀ e ∈ ['"', '\\', '/', 'b', 'f', 'n', 'r', 't'],
          Canonical.isCanonical e = true := List.all_eq_true.mp (by decide)
      exact isClosed_escape (hall e ((Text.exists_simpleEscape?_iff e).mp ⟨c, h⟩))
  | unit u =>
      have hstart : IsClosed ['\\', 'u'] := isClosed_escape rfl
      apply hstart.append
      apply isClosed_of_notMem
      intro hmem
      simp only [List.mem_cons, List.not_mem_nil, or_false] at hmem
      have hne : ∀ {c : Char}, Text.isHexDigit c = true → '\\' ≠ c :=
        fun hc => (Canonical.isCanonical_of_isHexDigit hc).2.symm
      rcases hmem with h | h | h | h
      · exact hne u.isHexDigit_a h
      · exact hne u.isHexDigit_b h
      · exact hne u.isHexDigit_c h
      · exact hne u.isHexDigit_d h

/-- A literal can be escaped, whatever characters are in it. -/
theorem isClosed_literal (ps : List Part) : IsClosed (literal ps) := by
  have hbody : IsClosed (body ps) := by
    induction ps with
    | nil => exact ⟨trivial, rfl⟩
    | cons p ps ih =>
        rw [body_cons]
        exact (isClosed_text p).append ih
  have hquote : IsClosed ['"'] := ⟨⟨.inl rfl, trivial⟩, rfl⟩
  exact hquote.append (hbody.append hquote)

/-! ## For the lexer and behind it -/

theorem isSimpleEscape_of_simpleEscape? {e c : Char} (h : Text.simpleEscape? e = some c) :
    Token.isSimpleEscape e = true := by
  have hall : ∀ e ∈ ['"', '\\', '/', 'b', 'f', 'n', 'r', 't'], Token.isSimpleEscape e = true :=
    List.all_eq_true.mp (by decide)
  exact hall e ((Text.exists_simpleEscape?_iff e).mp ⟨c, h⟩)

theorem isPiece_body (ps : List Part) : Token.IsPiece (body ps) := by
  apply Token.isPiece_flatMap
  intro p _
  cases p with
  | plain c h => exact Token.isPiece_of_ne h.2.1 h.2.2
  | letter e c h => exact Token.isPiece_simpleEscape (isSimpleEscape_of_simpleEscape? h)
  | unit u =>
      exact Token.isPiece_unit u.isHexDigit_a u.isHexDigit_b u.isHexDigit_c u.isHexDigit_d

/-- The escapes of a literal resolve to what it stands for. -/
theorem unescape_body (offset : Nat) (ps : List Part) :
    Text.unescape offset (body ps) = .ok (resolved ps) := by
  have hnil : ∀ more, ([] : List Char) ≠ '\\' :: more := nofun
  fun_induction resolved ps generalizing offset with
  | case1 => exact Text.unescape_nil offset
  | case2 c h ps ih =>
      rw [body_cons, Part.text, List.singleton_append, Text.unescape_cons_of_ne h.2.2, ih]
      rfl
  | case3 e c h ps ih =>
      rw [body_cons, Part.text, List.cons_append, List.singleton_append,
        Text.unescape_simple (ne_of_simpleEscape? h) h, ih]
      rfl
  | case4 u v ps h ih =>
      have hchar := unitChar_of_isPair h ps []
      rw [List.append_nil, List.append_nil] at hchar
      rw [body_cons, Part.text, List.cons_append, List.cons_append,
        Text.unescape_unit (u.hexUnit?_append _) hchar, ih]
      rfl
  | case5 u v ps h ih =>
      have hlow : Text.isHighSurrogate u.unit = true →
          Text.lowEscape? (body (.unit v :: ps)) = none := by
        intro hhigh
        have hlow := lowEscape?_body_of_not_isPair h hhigh ps []
        rwa [List.append_nil] at hlow
      rw [body_cons, Part.text, List.cons_append, List.cons_append,
        Text.unescape_unit (u.hexUnit?_append _) (unitChar_alone hlow), ih]
      rfl
  | case6 u ps h ih =>
      have hlow : Text.isHighSurrogate u.unit = true → Text.lowEscape? (body ps) = none := by
        intro _
        have hlow := lowEscape?_body_eq_none h hnil
        rwa [List.append_nil] at hlow
      rw [body_cons, Part.text, List.cons_append, List.cons_append,
        Text.unescape_unit (u.hexUnit?_append _) (unitChar_alone hlow), ih]
      rfl

/-! ## White space -/

/-- What holds of the four characters that are white space holds of all white space. -/
theorem IsBlank.all {p : Char → Bool} {cs : List Char} (h : IsBlank cs)
    (hall : [' ', '\t', '\n', '\r'].all p = true) : ∀ c ∈ cs, p c = true := by
  intro c hc
  exact List.all_eq_true.mp hall c (h c hc)

/-- White space does not go on a numeral. -/
theorem IsBlank.endsNumeral {cs : List Char} (h : IsBlank cs) : Token.EndsNumeral cs := by
  intro c hc
  have hall : ∀ c ∈ [' ', '\t', '\n', '\r'],
      c.isDigit = false ∧ c ≠ '.' ∧ c ≠ 'e' ∧ c ≠ 'E' :=
    List.forall_iff_forall_mem.mp (by decide)
  exact hall c (h c (List.mem_of_mem_head? hc))

end JsonAxes.Standard
