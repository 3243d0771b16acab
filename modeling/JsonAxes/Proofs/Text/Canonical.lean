import JsonAxes.Canonical
import JsonAxes.Proofs.Text.Unescape
import Mathlib.Data.List.Induction

/-!
# Putting text into canonical form

The canonical characters in front of a text are copied, which makes no difference
(`Canonical.ofChars_eq`): the text could as well be gone through from its first character.

`Canonical.Becomes cs cs'` says that the canonical form of `cs` is `cs'` wherever an even number
of backslashes stands in front, and that `cs` leaves such a number behind. Texts of that kind can
be put together (`Becomes.append`): a canonical character, an escape, a character that has to be
escaped.
-/

set_option autoImplicit false

namespace JsonAxes.Canonical

theorem isCanonical_of_isDigit {c : Char} (h : c.isDigit = true) :
    isCanonical c = true ∧ c ≠ '\\' := by
  constructor
  · rw [Char.isDigit, Bool.and_eq_true, decide_eq_true_iff, decide_eq_true_iff] at h
    have hle : ' ' ≤ c ∧ c ≤ '~' :=
      ⟨UInt32.le_trans (by decide) h.1, UInt32.le_trans h.2 (by decide)⟩
    simp [isCanonical, hle.1, hle.2]
  · rintro rfl
    exact absurd h (by decide)

/-! ## Canonical characters in front -/

theorem ofCharsFrom_cons {c : Char} (hc : isCanonical c = true) (offset backslashes : Nat)
    (rest : List Char) : ofCharsFrom offset backslashes (c :: rest)
      = (ofCharsFrom (offset + 1) (if c = '\\' then backslashes + 1 else 0) rest).map (c :: ·) :=
  if_pos hc

theorem endingBackslashes_concat (cs : List Char) (c : Char) :
    endingBackslashes (cs ++ [c]) = if c = '\\' then endingBackslashes cs + 1 else 0 := by
  rw [endingBackslashes, List.reverse_append, List.reverse_singleton, List.singleton_append,
    List.takeWhile_cons]
  by_cases hc : c = '\\' <;> simp [hc, endingBackslashes]

/-- Canonical characters are copied, and behind them the run of backslashes is the one that they end
in. -/
theorem ofCharsFrom_append {front : List Char} (h : front.all isCanonical = true)
    (rest : List Char) : ofCharsFrom 0 0 (front ++ rest)
      = (ofCharsFrom front.length (endingBackslashes front) rest).map (front ++ ·) := by
  -- from the right: the last character ends the run or makes it longer by one
  induction front using List.reverseRecOn generalizing rest with
  | nil =>
      rw [List.nil_append, List.length_nil, endingBackslashes]
      cases hrest : ofCharsFrom 0 0 rest <;> simp [hrest, Except.map]
  | append_singleton front c ih =>
      rw [List.all_append, Bool.and_eq_true, List.all_cons, Bool.and_eq_true] at h
      rw [List.append_assoc, List.singleton_append, ih h.1, ofCharsFrom_cons h.2.1,
        endingBackslashes_concat, List.length_append, List.length_singleton]
      cases ofCharsFrom (front.length + 1)
        (if c = '\\' then endingBackslashes front + 1 else 0) rest <;> simp [Except.map]

/-- The copy of what stands in front makes no difference. -/
theorem ofChars_eq (cs : List Char) : ofChars cs = ofCharsFrom 0 0 cs := by
  have hfront : (cs.takeWhile isCanonical).all isCanonical = true := List.all_takeWhile
  have happend := ofCharsFrom_append hfront (cs.dropWhile isCanonical)
  rw [List.takeWhile_append_dropWhile] at happend
  exact happend.symm

/-- Canonical text is left alone. -/
theorem ofText_of_isUnchanged {text : String} (h : isUnchanged text = true) :
    ofText text = .ok text := by
  have happend := ofCharsFrom_append h []
  rw [List.append_nil] at happend
  rw [ofText, ofChars_eq, happend]
  simp [ofCharsFrom, Except.map]

/-! ## Texts that leave no escape begun -/

/-- Whether a text, behind an even number of backslashes, has a canonical form and ends in an even
number of backslashes again. -/
def Becomes (cs cs' : List Char) : Prop :=
  ∀ offset backslashes, backslashes % 2 = 0 → ∃ backslashes', backslashes' % 2 = 0 ∧
    ∀ rest, ofCharsFrom offset backslashes (cs ++ rest)
      = (ofCharsFrom (offset + cs'.length) backslashes' rest).map (cs' ++ ·)

theorem ofChars_of_becomes {cs cs' : List Char} (h : Becomes cs cs') : ofChars cs = .ok cs' := by
  obtain ⟨backslashes, -, hrest⟩ := h 0 0 rfl
  have hcs := hrest []
  rw [List.append_nil] at hcs
  rw [ofChars_eq, hcs, ofCharsFrom]
  exact congrArg Except.ok (List.append_nil cs')

theorem becomes_nil : Becomes [] [] := by
  intro offset backslashes h
  refine ⟨backslashes, h, fun rest => ?_⟩
  cases hrest : ofCharsFrom offset backslashes rest <;> simp [hrest, Except.map]

theorem Becomes.append {as as' bs bs' : List Char} (ha : Becomes as as') (hb : Becomes bs bs') :
    Becomes (as ++ bs) (as' ++ bs') := by
  intro offset backslashes h
  obtain ⟨behind, hbehind, harest⟩ := ha offset backslashes h
  obtain ⟨behind', hbehind', hbrest⟩ := hb (offset + as'.length) behind hbehind
  refine ⟨behind', hbehind', fun rest => ?_⟩
  rw [List.append_assoc, harest, hbrest, List.length_append, ← Nat.add_assoc]
  cases ofCharsFrom (offset + as'.length + bs'.length) behind' rest <;> simp [Except.map]

theorem becomes_flatMap {α : Type} {f g : α → List Char} {xs : List α}
    (h : ∀ x ∈ xs, Becomes (f x) (g x)) : Becomes (xs.flatMap f) (xs.flatMap g) := by
  induction xs with
  | nil => exact becomes_nil
  | cons x xs ih =>
      rw [List.flatMap_cons, List.flatMap_cons]
      exact (h x List.mem_cons_self).append (ih fun y hy => h y (List.mem_cons_of_mem x hy))

/-- A canonical character other than a backslash stays as it is. -/
theorem becomes_singleton {c : Char} (hc : isCanonical c = true) (hslash : c ≠ '\\') :
    Becomes [c] [c] := by
  intro offset backslashes h
  refine ⟨0, rfl, fun rest => ?_⟩
  simp only [List.singleton_append, ofCharsFrom, hc, if_true, if_neg hslash, List.length_singleton]

/-- Canonical characters other than backslashes stay as they are. -/
theorem becomes_self {cs : List Char} (h : ∀ c ∈ cs, isCanonical c = true ∧ c ≠ '\\') :
    Becomes cs cs := by
  induction cs with
  | nil => exact becomes_nil
  | cons c cs ih =>
      have hc := h c List.mem_cons_self
      exact (becomes_singleton hc.1 hc.2).append (ih fun d hd => h d (List.mem_cons_of_mem c hd))

/-- Texts like these can be checked by running through them. -/
theorem becomes_of_all {cs : List Char} (h : cs.all (fun c => isCanonical c && c != '\\') = true) :
    Becomes cs cs := by
  refine becomes_self fun c hc => ?_
  have hall := List.all_eq_true.mp h c hc
  rwa [Bool.and_eq_true, bne_iff_ne] at hall

/-- A backslash and the canonical character that it escapes stay as they are. -/
theorem becomes_escape {e : Char} (he : isCanonical e = true) : Becomes ['\\', e] ['\\', e] := by
  intro offset backslashes h
  -- an escaped backslash adds a second one, any other character ends the run of them
  refine ⟨if e = '\\' then backslashes + 1 + 1 else 0, ?_, fun rest => ?_⟩
  · split <;> omega
  · have hslash : isCanonical '\\' = true := rfl
    simp only [List.cons_append, List.nil_append, ofCharsFrom, hslash, he, if_true,
      List.length_cons, List.length_nil]
    cases ofCharsFrom (offset + 1 + 1) (if e = '\\' then backslashes + 1 + 1 else 0) rest <;> rfl

/-- A character that may not stand in canonical text becomes its escape. -/
theorem becomes_charEscape {c : Char} (hc : isCanonical c = false) :
    Becomes [c] (Text.charEscape c) := by
  intro offset backslashes h
  refine ⟨0, rfl, fun rest => ?_⟩
  have hodd : ¬ backslashes % 2 = 1 := by omega
  simp only [List.singleton_append, ofCharsFrom, hc, Bool.false_eq_true, if_false, if_neg hodd,
    Text.length_charEscape]

theorem becomes_unitEscape (unit : Nat) :
    Becomes (Text.unitEscape unit) (Text.unitEscape unit) := by
  have hdigit : ∀ n : Nat, isCanonical (Text.hexDigit (n % 16)) = true
      ∧ Text.hexDigit (n % 16) ≠ '\\' := by
    have hall : ∀ m < 16, isCanonical (Text.hexDigit m) = true ∧ Text.hexDigit m ≠ '\\' := by decide
    exact fun n => hall _ (Nat.mod_lt n (by decide))
  refine (becomes_escape (e := 'u') rfl).append (becomes_self ?_)
  simp only [List.mem_cons, List.not_mem_nil, or_false]
  rintro c (rfl | rfl | rfl | rfl)
  · exact hdigit _
  · exact hdigit _
  · exact hdigit _
  · exact hdigit _

/-- What is escaped already stays as it is. -/
theorem becomes_charEscape_self (c : Char) : Becomes (Text.charEscape c) (Text.charEscape c) :=
  becomes_flatMap fun unit _ => becomes_unitEscape unit

end JsonAxes.Canonical
