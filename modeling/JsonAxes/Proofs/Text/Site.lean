import Mathlib.Algebra.GroupWithZero.Nat

/-!
# Where characters stand

A text is read from front to back. Each of its characters stands outside of string literals, in
one, or in one behind the backslash of an escape (`Text.sited`). What is said of the characters
outside of string literals comes down to that: which they are (`Text.outer`), how many brackets are
opened and closed by them (`Text.opened`, `Text.closed`), and what is left without the white space
among them (`Text.withoutBlanks`). All of these go through a text piece by piece, if the pieces end
outside of string literals (`Text.EndsOutside`).
-/

set_option autoImplicit false

namespace JsonAxes.Text

/-- Where a character stands. -/
inductive Site where
  | outside
  /-- In a string literal. -/
  | literal
  /-- In a string literal, behind the backslash of an escape. -/
  | escape
  deriving DecidableEq, Repr

namespace Site

/-- Where a text goes on behind a character. -/
def behind : Site → Char → Site
  | outside, c => if c = '"' then literal else outside
  | literal, c => if c = '"' then outside else if c = '\\' then escape else literal
  | escape, _ => literal

/-- Where a text goes on behind some characters. -/
def after (s : Site) (cs : List Char) : Site := cs.foldl behind s

@[simp] theorem after_cons (s : Site) (c : Char) (cs : List Char) :
    s.after (c :: cs) = (s.behind c).after cs := rfl

@[simp] theorem after_append (s : Site) (as bs : List Char) :
    s.after (as ++ bs) = (s.after as).after bs := List.foldl_append

theorem behind_outside {c : Char} (h : c ≠ '"') : outside.behind c = outside := if_neg h

theorem behind_literal {c : Char} (hquote : c ≠ '"') (hslash : c ≠ '\\') :
    literal.behind c = literal := by
  rw [behind, if_neg hquote, if_neg hslash]

end Site

/-- The characters of a text and where they stand, given where the first one does. -/
def sited (s : Site) : List Char → List (Site × Char)
  | [] => []
  | c :: cs => (s, c) :: sited (s.behind c) cs

/-- The characters outside of string literals. -/
def outer (cs : List Char) : List Char :=
  ((sited .outside cs).filter fun p => p.1 = .outside).map Prod.snd

/-- Whether a space or a line feed stands outside of string literals. -/
def isOuterBlank (p : Site × Char) : Bool := p.1 = .outside && (p.2 = ' ' || p.2 = '\n')

/-- A text without the spaces and line feeds outside of string literals. -/
def withoutBlanks (cs : List Char) : List Char :=
  ((sited .outside cs).filter fun p => !isOuterBlank p).map Prod.snd

/-! ## Brackets -/

def isOpening (c : Char) : Bool := c = '[' || c = '\x7b'

def isClosing (c : Char) : Bool := c = ']' || c = '\x7d'

/-- How many characters of a kind stand outside of string literals. -/
def outerCount (P : Char → Bool) (cs : List Char) : Nat := (outer cs).countP P

/-- How many brackets are opened outside of string literals. -/
def opened (cs : List Char) : Nat := outerCount isOpening cs

/-- How many brackets are closed outside of string literals. -/
def closed (cs : List Char) : Nat := outerCount isClosing cs

/-! ## One piece behind another -/

theorem sited_append (s : Site) (as bs : List Char) :
    sited s (as ++ bs) = sited s as ++ sited (s.after as) bs := by
  induction as generalizing s with
  | nil => rfl
  | cons c as ih => rw [List.cons_append, sited, ih, sited, List.cons_append, Site.after_cons]

theorem map_snd_sited (s : Site) (cs : List Char) : (sited s cs).map Prod.snd = cs := by
  induction cs generalizing s with
  | nil => rfl
  | cons c cs ih => rw [sited, List.map_cons, ih]

/-- Whether a text that begins outside of string literals ends there. -/
def EndsOutside (cs : List Char) : Prop := Site.outside.after cs = .outside

section Pieces

variable {as bs cs : List Char}

theorem endsOutside_nil : EndsOutside [] := rfl

theorem EndsOutside.append (ha : EndsOutside as) (hb : EndsOutside bs) :
    EndsOutside (as ++ bs) := by
  show Site.outside.after (as ++ bs) = .outside
  rw [Site.after_append, ha, hb]

theorem EndsOutside.sited_append (h : EndsOutside as) (bs : List Char) :
    sited .outside (as ++ bs) = sited .outside as ++ sited .outside bs := by
  rw [Text.sited_append, h]

theorem EndsOutside.outer_append (h : EndsOutside as) (bs : List Char) :
    outer (as ++ bs) = outer as ++ outer bs := by
  simp only [outer, h.sited_append, List.filter_append, List.map_append]

theorem EndsOutside.withoutBlanks_append (h : EndsOutside as) (bs : List Char) :
    withoutBlanks (as ++ bs) = withoutBlanks as ++ withoutBlanks bs := by
  simp only [withoutBlanks, h.sited_append, List.filter_append, List.map_append]

theorem EndsOutside.outerCount_append (h : EndsOutside as) (P : Char → Bool) (bs : List Char) :
    outerCount P (as ++ bs) = outerCount P as + outerCount P bs := by
  rw [outerCount, h.outer_append, List.countP_append, outerCount, outerCount]

section Many

variable {α : Type} {f : α → List Char} (h : ∀ a, EndsOutside (f a))
include h

theorem endsOutside_flatMap (as : List α) : EndsOutside (as.flatMap f) := by
  induction as with
  | nil => exact endsOutside_nil
  | cons a as ih => exact (h a).append ih

theorem withoutBlanks_flatMap (as : List α) :
    withoutBlanks (as.flatMap f) = as.flatMap fun a => withoutBlanks (f a) := by
  induction as with
  | nil => rfl
  | cons a as ih => rw [List.flatMap_cons, (h a).withoutBlanks_append, ih, List.flatMap_cons]

theorem outerCount_flatMap (P : Char → Bool) (as : List α) :
    outerCount P (as.flatMap f) = (as.map fun a => outerCount P (f a)).sum := by
  induction as with
  | nil => rfl
  | cons a as ih =>
      rw [List.flatMap_cons, (h a).outerCount_append, ih, List.map_cons, List.sum_cons]

end Many

/-- A text without a space or line feed outside of string literals is left alone. -/
theorem withoutBlanks_eq_self (h : ∀ p ∈ sited .outside cs, isOuterBlank p = false) :
    withoutBlanks cs = cs := by
  have hall : (sited .outside cs).filter (fun p => !isOuterBlank p) = sited .outside cs := by
    apply List.filter_eq_self.mpr
    intro p hp
    rw [h p hp, Bool.not_false]
  rw [withoutBlanks, hall, map_snd_sited]

/-! ## Pieces without quotes -/

theorem endsOutside_of_notMem (h : '"' ∉ cs) : EndsOutside cs := by
  induction cs with
  | nil => exact endsOutside_nil
  | cons c cs ih =>
      rw [List.mem_cons, not_or] at h
      show (Site.outside.behind c).after cs = .outside
      rw [Site.behind_outside (Ne.symm h.1)]
      exact ih h.2

theorem sited_of_notMem (h : '"' ∉ cs) : sited .outside cs = cs.map (Prod.mk .outside) := by
  induction cs with
  | nil => rfl
  | cons c cs ih =>
      rw [List.mem_cons, not_or] at h
      rw [sited, Site.behind_outside (Ne.symm h.1), ih h.2, List.map_cons]

/-- Without quotes all characters stand outside of string literals. -/
theorem outer_of_notMem (h : '"' ∉ cs) : outer cs = cs := by
  have hall : (sited .outside cs).filter (fun p => p.1 = .outside) = sited .outside cs := by
    apply List.filter_eq_self.mpr
    intro p hp
    rw [sited_of_notMem h] at hp
    obtain ⟨c, -, rfl⟩ := List.mem_map.mp hp
    rfl
  rw [outer, hall, map_snd_sited]

theorem withoutBlanks_of_notMem (hquote : '"' ∉ cs) (hspace : ' ' ∉ cs) (hfeed : '\n' ∉ cs) :
    withoutBlanks cs = cs := by
  apply withoutBlanks_eq_self
  intro p hp
  rw [sited_of_notMem hquote] at hp
  obtain ⟨c, hc, rfl⟩ := List.mem_map.mp hp
  have hne : c ≠ ' ' ∧ c ≠ '\n' := ⟨fun h => hspace (h ▸ hc), fun h => hfeed (h ▸ hc)⟩
  simp [isOuterBlank, hne]

section Blank

variable (h : ∀ c ∈ cs, c = '\n' ∨ c = ' ')
include h

theorem quote_notMem_of_blank : '"' ∉ cs := by
  intro hmem
  rcases h _ hmem with h | h
  · exact absurd h (by decide)
  · exact absurd h (by decide)

theorem endsOutside_of_blank : EndsOutside cs := endsOutside_of_notMem (quote_notMem_of_blank h)

theorem withoutBlanks_of_blank : withoutBlanks cs = [] := by
  rw [withoutBlanks, sited_of_notMem (quote_notMem_of_blank h), List.map_eq_nil_iff,
    List.filter_eq_nil_iff]
  intro p hp
  obtain ⟨c, hc, rfl⟩ := List.mem_map.mp hp
  rcases h c hc with rfl | rfl
  · decide
  · decide

theorem outerCount_of_blank {P : Char → Bool} (hfeed : P '\n' = false) (hspace : P ' ' = false) :
    outerCount P cs = 0 := by
  rw [outerCount, outer_of_notMem (quote_notMem_of_blank h), List.countP_eq_zero]
  intro c hc
  rcases h c hc with rfl | rfl
  · simp [hfeed]
  · simp [hspace]

end Blank

/-! ## String literals -/

/-- Whether a text that begins in a string literal stays in it to its end. -/
def StaysInside (cs : List Char) : Prop :=
  Site.literal.after cs = .literal ∧ ∀ p ∈ sited .literal cs, p.1 ≠ .outside

theorem staysInside_nil : StaysInside [] := ⟨rfl, List.forall_mem_nil _⟩

theorem StaysInside.append (ha : StaysInside as) (hb : StaysInside bs) :
    StaysInside (as ++ bs) := by
  constructor
  · rw [Site.after_append, ha.1, hb.1]
  · intro p hp
    rw [sited_append, ha.1] at hp
    rcases List.mem_append.mp hp with hp | hp
    · exact ha.2 p hp
    · exact hb.2 p hp

theorem staysInside_of_ne {c : Char} (hquote : c ≠ '"') (hslash : c ≠ '\\') : StaysInside [c] := by
  constructor
  · exact Site.behind_literal hquote hslash
  · intro p hp hsite
    rw [List.mem_singleton.mp hp] at hsite
    cases hsite

/-- An escape by letter, or what an escape by number begins with. -/
theorem staysInside_escape (e : Char) : StaysInside ['\\', e] := by
  constructor
  · rfl
  · intro p hp
    have hmem : p ∈ [(Site.literal, '\\'), (Site.escape, e)] := hp
    rw [List.mem_cons, List.mem_singleton] at hmem
    rcases hmem with rfl | rfl
    · decide
    · intro hsite
      cases hsite

theorem staysInside_of_forall (h : ∀ c ∈ cs, c ≠ '"' ∧ c ≠ '\\') : StaysInside cs := by
  induction cs with
  | nil => exact staysInside_nil
  | cons c cs ih =>
      obtain ⟨hc, hcs⟩ := List.forall_mem_cons.mp h
      exact (staysInside_of_ne hc.1 hc.2).append (ih hcs)

/-- Of a string literal only the quote in front stands outside. -/
theorem StaysInside.sited_quoted (h : StaysInside cs) :
    sited .outside ('"' :: (cs ++ ['"']))
      = (.outside, '"') :: (sited .literal cs ++ [(.literal, '"')]) := by
  have hbehind : Site.outside.behind '"' = .literal := rfl
  rw [sited, hbehind, sited_append, h.1]
  rfl

theorem StaysInside.endsOutside_quoted (h : StaysInside cs) :
    EndsOutside ('"' :: (cs ++ ['"'])) := by
  show Site.literal.after (cs ++ ['"']) = .outside
  rw [Site.after_append, h.1]
  rfl

theorem StaysInside.outer_quoted (h : StaysInside cs) : outer ('"' :: (cs ++ ['"'])) = ['"'] := by
  have hnone : (sited .literal cs).filter (fun p => p.1 = .outside) = [] := by
    apply List.filter_eq_nil_iff.mpr
    intro p hp
    simpa using h.2 p hp
  rw [outer, h.sited_quoted, List.filter_cons_of_pos (by decide), List.filter_append, hnone]
  rfl

theorem StaysInside.outerCount_quoted (h : StaysInside cs) {P : Char → Bool} (hP : P '"' = false) :
    outerCount P ('"' :: (cs ++ ['"'])) = 0 := by
  rw [outerCount, h.outer_quoted]
  simp [hP]

theorem StaysInside.withoutBlanks_quoted (h : StaysInside cs) :
    withoutBlanks ('"' :: (cs ++ ['"'])) = '"' :: (cs ++ ['"']) := by
  apply withoutBlanks_eq_self
  intro p hp
  rw [h.sited_quoted, List.mem_cons, List.mem_append, List.mem_singleton] at hp
  rcases hp with rfl | hp | rfl
  · rfl
  · simp [isOuterBlank, h.2 p hp]
  · rfl

end Pieces

end JsonAxes.Text
