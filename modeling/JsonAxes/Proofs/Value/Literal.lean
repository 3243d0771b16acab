import JsonAxes.Proofs.Text.Canonical
import JsonAxes.Proofs.Token.Cutting
import JsonAxes.Value.Printer

/-!
# Printed string literals

How a character is printed takes one of four forms (`Layout.charForm`), and each form does what the
passes of reading ask of it: its canonical form is what is printed with all but ASCII escaped, the
lexer takes it as one piece of a string, and its escape resolves to the character.
-/

set_option autoImplicit false

namespace JsonAxes.Layout

/-- The layout with everything but printable ASCII escaped. -/
def ascii (l : Layout) : Layout := { l with asciiOnly := true }

/-- How a character is printed. -/
inductive CharForm (c : Char) : Prop where
  /-- As an escape by letter. -/
  | letter (e : Char) (hcanonical : Canonical.isCanonical e = true)
      (hsimple : Token.isSimpleEscape e = true) (hc : Text.simpleEscape? e = some c)
      (h : ∀ l : Layout, l.charText c = ['\\', e])
  /-- As an escape by number. -/
  | number (h : ∀ l : Layout, l.charText c = Text.charEscape c)
  /-- As it is. -/
  | plain (hc : Canonical.isCanonical c = true) (hquote : c ≠ '"') (hslash : c ≠ '\\')
      (h : ∀ l : Layout, l.charText c = [c])
  /-- As it is, unless everything but ASCII is escaped. -/
  | beyond (hc : Canonical.isCanonical c = false) (hquote : c ≠ '"') (hslash : c ≠ '\\')
      (h : ∀ l : Layout, l.charText c = if l.asciiOnly then Text.charEscape c else [c])

theorem isCanonical_of_bounds {c : Char} (hlow : ¬ c < ' ') (hdelete : c ≠ '\x7f')
    (hhigh : ¬ '\x7f' < c) : Canonical.isCanonical c = true := by
  have h₁ : ¬ c.toNat < 32 := hlow
  have h₂ : ¬ 127 < c.toNat := hhigh
  have h₃ : c.toNat ≠ 127 := fun h => hdelete (Char.toNat_inj.mp h)
  have hle : 32 ≤ c.toNat ∧ c.toNat ≤ 126 := by omega
  have h : ' ' ≤ c ∧ c ≤ '~' := hle
  simp [Canonical.isCanonical, h.1, h.2]

theorem isCanonical_of_lt {c : Char} (h : '\x7f' < c) : Canonical.isCanonical c = false := by
  have hlt : 127 < c.toNat := h
  have hne : ∀ d : Char, d.toNat ≤ 127 → c ≠ d := by
    rintro d hd rfl
    omega
  have hle : ¬ c ≤ '~' := by
    intro hle
    have h' : c.toNat ≤ 126 := hle
    omega
  simp [Canonical.isCanonical, hle, hne _ (show ('\t').toNat ≤ 127 by decide),
    hne _ (show ('\n').toNat ≤ 127 by decide), hne _ (show ('\r').toNat ≤ 127 by decide),
    hne _ (show ('\x08').toNat ≤ 127 by decide), hne _ (show ('\x0b').toNat ≤ 127 by decide),
    hne _ (show ('\x0c').toNat ≤ 127 by decide)]

theorem charForm (c : Char) : CharForm c := by
  by_cases hquote : c = '"'
  · exact .letter '"' rfl rfl (by rw [hquote]; rfl) fun l => by rw [hquote]; rfl
  by_cases hslash : c = '\\'
  · exact .letter '\\' rfl rfl (by rw [hslash]; rfl) fun l => by rw [hslash]; rfl
  by_cases hn : c = '\n'
  · exact .letter 'n' rfl rfl (by rw [hn]; rfl) fun l => by rw [hn]; rfl
  by_cases hr : c = '\r'
  · exact .letter 'r' rfl rfl (by rw [hr]; rfl) fun l => by rw [hr]; rfl
  by_cases ht : c = '\t'
  · exact .letter 't' rfl rfl (by rw [ht]; rfl) fun l => by rw [ht]; rfl
  by_cases hb : c = '\x08'
  · exact .letter 'b' rfl rfl (by rw [hb]; rfl) fun l => by rw [hb]; rfl
  by_cases hf : c = '\x0c'
  · exact .letter 'f' rfl rfl (by rw [hf]; rfl) fun l => by rw [hf]; rfl
  have htext : ∀ l : Layout, l.charText c
      = if c < ' ' || c = '\x7f' || (l.asciiOnly && '\x7f' < c) then Text.charEscape c
        else [c] := by
    intro l
    simp only [charText, if_neg hquote, if_neg hslash, if_neg hn, if_neg hr, if_neg ht, if_neg hb,
      if_neg hf]
  by_cases hcontrol : c < ' ' ∨ c = '\x7f'
  · refine .number fun l => ?_
    rw [htext, if_pos]
    rcases hcontrol with h | h <;> simp [h]
  rw [not_or] at hcontrol
  by_cases hhigh : '\x7f' < c
  · refine .beyond (isCanonical_of_lt hhigh) hquote hslash fun l => ?_
    rw [htext]
    simp [hcontrol.1, hcontrol.2, hhigh]
  · refine .plain (isCanonical_of_bounds hcontrol.1 hcontrol.2 hhigh) hquote hslash fun l => ?_
    rw [htext, if_neg]
    simp [hcontrol.1, hcontrol.2, hhigh]

/-! ## Characters -/

/-- What is printed for a character has what is printed with all but ASCII escaped for its
canonical form. -/
theorem becomes_charText (l : Layout) (c : Char) :
    Canonical.Becomes (l.charText c) (l.ascii.charText c) := by
  cases charForm c with
  | letter e hcanonical _ _ h =>
      rw [h, h]
      exact Canonical.becomes_escape hcanonical
  | number h =>
      rw [h, h]
      exact Canonical.becomes_charEscape_self c
  | plain hc _ hslash h =>
      rw [h, h]
      exact Canonical.becomes_singleton hc hslash
  | beyond hc _ _ h =>
      rw [h, h, ascii, if_pos rfl]
      split
      · exact Canonical.becomes_charEscape_self c
      · exact Canonical.becomes_charEscape hc

theorem isPiece_charText (l : Layout) (c : Char) : Token.IsPiece (l.charText c) := by
  have hescape : Token.IsPiece (Text.charEscape c) :=
    Token.isPiece_flatMap fun unit _ => Token.isPiece_unitEscape unit
  cases charForm c with
  | letter e _ hsimple _ h =>
      rw [h]
      exact Token.isPiece_simpleEscape hsimple
  | number h =>
      rw [h]
      exact hescape
  | plain _ hquote hslash h =>
      rw [h]
      exact Token.isPiece_of_ne hquote hslash
  | beyond _ hquote hslash h =>
      rw [h]
      split
      · exact hescape
      · exact Token.isPiece_of_ne hquote hslash

/-- What is printed for a character resolves to it. -/
theorem unescape_charText_append (l : Layout) (c : Char) (offset : Nat) :
    ∃ offset', ∀ rest, Text.unescape offset (l.charText c ++ rest)
      = (Text.unescape offset' rest).map (c :: ·) := by
  cases charForm c with
  | letter e _ hsimple hc h =>
      rw [h]
      exact ⟨_, Text.unescape_simple (Token.ne_of_isSimpleEscape hsimple) hc offset⟩
  | number h =>
      rw [h]
      exact ⟨_, Text.unescape_charEscape_append c offset⟩
  | plain _ _ hslash h =>
      rw [h]
      exact ⟨_, Text.unescape_cons_of_ne hslash offset⟩
  | beyond _ _ hslash h =>
      rw [h]
      split
      · exact ⟨_, Text.unescape_charEscape_append c offset⟩
      · exact ⟨_, Text.unescape_cons_of_ne hslash offset⟩

/-! ## Strings -/

/-- The body of a printed string literal resolves to the string. -/
theorem unescape_flatMap_charText (l : Layout) (offset : Nat) (cs : List Char) :
    Text.unescape offset (cs.flatMap l.charText) = .ok cs := by
  induction cs generalizing offset with
  | nil => exact Text.unescape_nil offset
  | cons c cs ih =>
      obtain ⟨offset', h⟩ := unescape_charText_append l c offset
      rw [List.flatMap_cons, h, ih]
      rfl

theorem becomes_stringText (l : Layout) (s : String) :
    Canonical.Becomes (l.stringText s) (l.ascii.stringText s) := by
  have hquote : Canonical.Becomes ['"'] ['"'] := Canonical.becomes_singleton rfl (by decide)
  exact hquote.append ((Canonical.becomes_flatMap fun c _ => becomes_charText l c).append hquote)

/-- The lexer takes a printed string literal as one token. -/
theorem cutsInto_stringText (l : Layout) (s : String) (rest : List Char) :
    Token.CutsInto (l.stringText s ++ rest) (Token.IsSingle .string (s.toList.flatMap l.charText))
      rest := by
  have hbody : Token.IsPiece (s.toList.flatMap l.charText) :=
    Token.isPiece_flatMap fun c _ => isPiece_charText l c
  have h := Token.cutsInto_string hbody rest
  rwa [stringText, List.cons_append, List.append_assoc]

end JsonAxes.Layout
