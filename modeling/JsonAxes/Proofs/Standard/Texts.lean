import JsonAxes.Exchange.Text
import JsonAxes.Proofs.Standard.Grammar

/-!
# Texts of containers as lists

The grammar builds the text of a container up from its end. Here it is a list of the texts within
it, with brackets around them and commas between them, and what is kept by containers in this sense
(`Standard.Hereditary`) holds of all texts.
-/

set_option autoImplicit false

namespace JsonAxes

/-- Pieces with commas between them are the first and then each other behind a comma. -/
theorem Exchange.bracketed_cons (opening closing : Char) (piece : List Char)
    (pieces : List (List Char)) : bracketed opening closing (piece :: pieces)
      = opening :: (piece ++ (pieces.flatMap (',' :: ·) ++ [closing])) := by
  rw [bracketed, Text.intercalate_cons, List.append_assoc]

namespace Standard

open Exchange

/-! ## White space -/

theorem isBlank_nil : IsBlank [] := nofun

theorem IsBlank.append {cs more : List Char} (h : IsBlank cs) (hmore : IsBlank more) :
    IsBlank (cs ++ more) := by
  intro c hc
  rcases List.mem_append.mp hc with hc | hc
  · exact h c hc
  · exact hmore c hc

/-- A text without white space around it. -/
theorem Written.padded {x : Standard} {cs : List Char} (h : Written x cs) : Padded x cs := by
  have hpadded := Padded.mk isBlank_nil h isBlank_nil
  rwa [List.append_nil] at hpadded

/-! ## Texts in a container -/

/-- Whether a text is that of a value, perhaps with white space on either side. -/
def IsPadded (cs : List Char) : Prop := ∃ x, Padded x cs

/-- A member as it stands in a text, in pieces. -/
structure Entry where
  before : List Char
  key : List Part
  behind : List Char
  text : List Char

namespace Entry

/-- The characters of a member. -/
def chars (e : Entry) : List Char :=
  e.before ++ (literal e.key ++ (e.behind ++ ':' :: e.text))

/-- Whether there is white space around the key, and the text of a value behind it. -/
structure IsPadded (e : Entry) : Prop where
  before : IsBlank e.before
  behind : IsBlank e.behind
  text : Standard.IsPadded e.text

end Entry

/-- Whether a text is that of a value with white space around it, and something holds of the text
without that. -/
structure PaddedWith (P : Standard → List Char → Prop) (x : Standard) (cs : List Char) : Prop where
  exists_written : ∃ before core behind, IsBlank before ∧ IsBlank behind ∧ Written x core
    ∧ P x core ∧ cs = before ++ (core ++ behind)

theorem PaddedWith.isPadded {P : Standard → List Char → Prop} {x : Standard} {cs : List Char}
    (h : PaddedWith P x cs) : IsPadded cs := by
  obtain ⟨before, core, behind, hbefore, hbehind, hx, -, rfl⟩ := h.exists_written
  exact ⟨x, .mk hbefore hx hbehind⟩

/-- The same of a member. -/
structure EntryWith (P : Standard → List Char → Prop) (m : List Part × Standard) (e : Entry) :
    Prop where
  key : e.key = m.1
  before : IsBlank e.before
  behind : IsBlank e.behind
  text : PaddedWith P m.2 e.text

theorem EntryWith.isPadded {P : Standard → List Char → Prop} {m : List Part × Standard} {e : Entry}
    (h : EntryWith P m e) : e.IsPadded := ⟨h.before, h.behind, h.text.isPadded⟩

/-- What holds of each text that stands against a value. -/
theorem forall_of_forall₂ {α β : Type} {R : α → β → Prop} {P : β → Prop} {xs : List α}
    {ys : List β} (h : xs.Forall₂ R ys) (hP : ∀ x y, R x y → P y) : ∀ y ∈ ys, P y := by
  induction h with
  | nil => exact List.forall_mem_nil P
  | cons hxy _ ih => exact List.forall_mem_cons.mpr ⟨hP _ _ hxy, ih⟩

/-! ## Induction -/

/-- What holds of all texts that are not containers', and of those of containers if it does of the
texts within them. -/
structure Hereditary (P : Standard → List Char → Prop) : Prop where
  string (ps : List Part) : P (.string ps) (literal ps)
  number (n : Numeral) (hn : n.IsStandard) : P (.number n) n.text
  bool (b : Bool) : P (.bool b) (boolText b)
  null : P .null nullText
  emptyArray {gap : List Char} (hgap : IsBlank gap) : P (.array []) ('[' :: (gap ++ [']']))
  array {xs : List Standard} {texts : List (List Char)} (hne : texts ≠ [])
    (h : xs.Forall₂ (PaddedWith P) texts) : P (.array xs) (bracketed '[' ']' texts)
  emptyObject {gap : List Char} (hgap : IsBlank gap) :
    P (.object []) ('\x7b' :: (gap ++ ['\x7d']))
  object {ms : List (List Part × Standard)} {entries : List Entry} (hne : entries ≠ [])
    (h : ms.Forall₂ (EntryWith P) entries) :
    P (.object ms) (bracketed '\x7b' '\x7d' (entries.map Entry.chars))

namespace Hereditary

variable {P : Standard → List Char → Prop} {x : Standard} {cs : List Char}

mutual

/-- What is hereditary holds of all texts. -/
theorem written (h : Hereditary P) {x : Standard} {cs : List Char} : Written x cs → P x cs
  | .string ps => h.string ps
  | .number n hn => h.number n hn
  | .bool b => h.bool b
  | .null => h.null
  | .emptyArray hgap => h.emptyArray hgap
  | .array hx hxs => by
      obtain ⟨texts, rfl, htexts⟩ := h.exists_texts hxs
      rw [← bracketed_cons]
      exact h.array (List.cons_ne_nil _ texts) (.cons (h.padded hx) htexts)
  | .emptyObject hgap => h.emptyObject hgap
  | .object hm hms => by
      obtain ⟨e, rfl, he⟩ := h.exists_entry hm
      obtain ⟨entries, rfl, hentries⟩ := h.exists_entries hms
      rw [← bracketed_cons]
      exact h.object (List.cons_ne_nil e entries) (.cons he hentries)

theorem padded (h : Hereditary P) {x : Standard} {cs : List Char} :
    Padded x cs → PaddedWith P x cs
  | .mk hbefore hx hbehind => ⟨_, _, _, hbefore, hbehind, hx, h.written hx, rfl⟩

theorem exists_texts (h : Hereditary P) {xs : List Standard} {cs : List Char} :
    WrittenElements xs cs →
      ∃ texts : List (List Char), cs = texts.flatMap (',' :: ·) ∧ xs.Forall₂ (PaddedWith P) texts
  | .nil => ⟨[], rfl, .nil⟩
  | .cons hx hxs => by
      obtain ⟨texts, rfl, htexts⟩ := h.exists_texts hxs
      exact ⟨_ :: texts, rfl, .cons (h.padded hx) htexts⟩

theorem exists_entry (h : Hereditary P) {key : List Part} {x : Standard} {cs : List Char} :
    WrittenMember key x cs → ∃ e : Entry, cs = e.chars ∧ EntryWith P (key, x) e
  | .mk hbefore hbehind hx =>
      ⟨⟨_, key, _, _⟩, rfl, rfl, hbefore, hbehind, h.padded hx⟩

theorem exists_entries (h : Hereditary P) {ms : List (List Part × Standard)} {cs : List Char} :
    WrittenMembers ms cs → ∃ entries : List Entry,
      cs = (entries.map Entry.chars).flatMap (',' :: ·) ∧ ms.Forall₂ (EntryWith P) entries
  | .nil => ⟨[], rfl, .nil⟩
  | .cons hm hms => by
      obtain ⟨e, rfl, he⟩ := h.exists_entry hm
      obtain ⟨entries, rfl, hentries⟩ := h.exists_entries hms
      exact ⟨e :: entries, rfl, .cons he hentries⟩

end

end Hereditary

end Standard

end JsonAxes
