import JsonAxes.Proofs.Text.Canonical
import JsonAxes.Proofs.Text.Runs
import JsonAxes.Proofs.Text.WellEscaped

/-!
# Texts that have a canonical form

Character by character, the canonical form of a text is the text with some characters escaped
(`Canonical.form`). A text has one if none of these characters stands behind a backslash that
begins an escape (`Canonical.Escapable`, `Canonical.ofText_eq_ok_iff`). Whether the last backslash
begins one is a single bit that is carried along (`Canonical.begun`): another backslash switches
it, any other character clears it.

In such a text escapes resolve as they do in its canonical form (`Canonical.unescape_form`). The
escape of a character never passes for the second half of a pair of surrogates that an escape in
front of it has begun, since its first unit is no low surrogate.
-/

set_option autoImplicit false

namespace JsonAxes.Canonical

/-! ## The form of a text -/

/-- A text with all that is not canonical escaped. -/
def form (cs : List Char) : List Char :=
  cs.flatMap fun c => if isCanonical c then [c] else Text.charEscape c

@[simp] theorem form_nil : form [] = [] := rfl

theorem form_cons {c : Char} (hc : isCanonical c = true) (cs : List Char) :
    form (c :: cs) = c :: form cs := by
  rw [form, List.flatMap_cons, if_pos hc]
  rfl

theorem form_cons_of_not {c : Char} (hc : isCanonical c = false) (cs : List Char) :
    form (c :: cs) = Text.charEscape c ++ form cs := by
  rw [form, List.flatMap_cons, if_neg (Bool.eq_false_iff.mp hc)]
  rfl

theorem form_append (as bs : List Char) : form (as ++ bs) = form as ++ form bs :=
  List.flatMap_append

theorem form_of_all {cs : List Char} (h : ∀ c ∈ cs, isCanonical c = true) : form cs = cs := by
  induction cs with
  | nil => rfl
  | cons c cs ih =>
      rw [form_cons (h c List.mem_cons_self), ih fun d hd => h d (List.mem_cons_of_mem c hd)]

/-- The escape of a character begins with that of its first unit, which is no low surrogate. -/
theorem exists_charEscape_eq (c : Char) :
    ∃ unit more, Text.charEscape c = Text.unitEscape unit ++ more ∧ unit < 0x10000
      ∧ Text.isLowSurrogate unit = false := by
  by_cases h : c.toNat < 0x10000
  · refine ⟨c.toNat, [], ?_, h, ?_⟩
    · rw [Text.charEscape, Text.units, if_pos h]
      rfl
    · exact Text.isLowSurrogate_toNat c
  · obtain ⟨high, low, hunits, hhigh, -, -⟩ := Text.exists_pair_of_le (Nat.not_lt.mp h)
    refine ⟨high, Text.unitEscape low, ?_, Text.lt_of_isHighSurrogate hhigh, ?_⟩
    · rw [Text.charEscape, hunits]
      simp only [List.flatMap_cons, List.flatMap_nil, List.append_nil]
    · exact Text.isLowSurrogate_of_isHighSurrogate hhigh

/-- What is not canonical is escaped behind a backslash. -/
theorem exists_form_eq {c : Char} (hc : isCanonical c = false) (cs : List Char) :
    ∃ ds, form (c :: cs) = '\\' :: ds := by
  obtain ⟨unit, more, hescape, -, -⟩ := exists_charEscape_eq c
  rw [form_cons_of_not hc, hescape, Text.unitEscape_eq]
  exact ⟨_, rfl⟩

/-- A form that begins with anything but a backslash is that of a text that begins with it. -/
theorem exists_of_form_eq_cons {cs ds : List Char} {d : Char} (hd : d ≠ '\\')
    (h : form cs = d :: ds) : isCanonical d = true ∧ ∃ rest, cs = d :: rest ∧ form rest = ds := by
  cases cs with
  | nil => cases h
  | cons c cs =>
      by_cases hc : isCanonical c = true
      · rw [form_cons hc] at h
        cases h
        exact ⟨hc, cs, rfl, rfl⟩
      · rw [Bool.not_eq_true] at hc
        obtain ⟨es, hform⟩ := exists_form_eq hc cs
        rw [hform] at h
        cases h
        exact absurd rfl hd

/-- A run of canonical characters ends in the form of a text where it ends in the text. -/
theorem takeWhile_form {p : Char → Bool} (hp : ∀ c, p c = true → isCanonical c = true)
    (hslash : p '\\' = false) (cs : List Char) :
    (form cs).takeWhile p = cs.takeWhile p ∧ (form cs).dropWhile p = form (cs.dropWhile p) := by
  have hslash : ¬ p '\\' = true := Bool.eq_false_iff.mp hslash
  induction cs with
  | nil => exact ⟨rfl, rfl⟩
  | cons c cs ih =>
      by_cases hc : p c = true
      · rw [form_cons (hp c hc), List.takeWhile_cons_of_pos hc, List.dropWhile_cons_of_pos hc,
          List.takeWhile_cons_of_pos hc, List.dropWhile_cons_of_pos hc, ih.1, ih.2]
        exact ⟨rfl, rfl⟩
      · rw [List.takeWhile_cons_of_neg hc, List.dropWhile_cons_of_neg hc]
        by_cases hcanonical : isCanonical c = true
        · rw [form_cons hcanonical, List.takeWhile_cons_of_neg hc, List.dropWhile_cons_of_neg hc]
          exact ⟨rfl, rfl⟩
        · rw [Bool.not_eq_true] at hcanonical
          obtain ⟨ds, hform⟩ := exists_form_eq hcanonical cs
          rw [hform, List.takeWhile_cons_of_neg hslash, List.dropWhile_cons_of_neg hslash]
          exact ⟨rfl, rfl⟩

/-- The same of a run that goes through all that is escaped and through the escapes. -/
theorem takeWhile_form_of_escaped {p : Char → Bool}
    (hp : ∀ c, isCanonical c = false → p c = true ∧ ∀ d ∈ Text.charEscape c, p d = true)
    (cs : List Char) :
    (form cs).takeWhile p = form (cs.takeWhile p)
      ∧ (form cs).dropWhile p = form (cs.dropWhile p) := by
  induction cs with
  | nil => exact ⟨rfl, rfl⟩
  | cons c cs ih =>
      by_cases hcanonical : isCanonical c = true
      · rw [form_cons hcanonical]
        by_cases hc : p c = true
        · rw [List.takeWhile_cons_of_pos hc, List.dropWhile_cons_of_pos hc,
            List.takeWhile_cons_of_pos hc, List.dropWhile_cons_of_pos hc, form_cons hcanonical,
            ih.1, ih.2]
          exact ⟨rfl, rfl⟩
        · rw [List.takeWhile_cons_of_neg hc, List.dropWhile_cons_of_neg hc,
            List.takeWhile_cons_of_neg hc, List.dropWhile_cons_of_neg hc, form_cons hcanonical]
          exact ⟨rfl, rfl⟩
      · rw [Bool.not_eq_true] at hcanonical
        obtain ⟨hc, hescape⟩ := hp c hcanonical
        rw [form_cons_of_not hcanonical, List.takeWhile_append_of_pos hescape,
          List.dropWhile_append_of_pos hescape, List.takeWhile_cons_of_pos hc,
          List.dropWhile_cons_of_pos hc, form_cons_of_not hcanonical, ih.1, ih.2]
        exact ⟨rfl, rfl⟩

/-! ## Texts that can be escaped -/

/-- Whether a backslash at the end of a text begins an escape, given whether one in front of it
does. -/
def begun (before : Bool) (cs : List Char) : Bool := cs.foldl (fun b c => c == '\\' && !b) before

theorem begun_append (before : Bool) (as bs : List Char) :
    begun before (as ++ bs) = begun (begun before as) bs := List.foldl_append

/-- A text that ends in anything else leaves no escape begun. -/
theorem begun_concat (before : Bool) (cs : List Char) {c : Char} (hc : c ≠ '\\') :
    begun before (cs ++ [c]) = false := by
  rw [begun_append, begun, List.foldl_cons, List.foldl_nil, beq_false_of_ne hc, Bool.false_and]

theorem begun_append_of_not {as bs : List Char} (ha : begun false as = false)
    (hb : begun false bs = false) : begun false (as ++ bs) = false := by
  rw [begun_append, ha, hb]

theorem begun_of_notMem {cs : List Char} (h : '\\' ∉ cs) : begun false cs = false := by
  rcases List.eq_nil_or_concat' cs with rfl | ⟨front, c, rfl⟩
  · rfl
  · apply begun_concat
    rintro rfl
    exact h (List.mem_append_right front List.mem_cons_self)

/-- Whether no character that has to be escaped stands behind the beginning of an escape. -/
def Escapable : Bool → List Char → Prop
  | _, [] => True
  | before, c :: rest =>
    (isCanonical c = true ∨ before = false) ∧ Escapable (c == '\\' && !before) rest

instance decidableEscapable : ∀ before, DecidablePred (Escapable before)
  | _, [] => isTrue trivial
  | before, c :: rest =>
    have := decidableEscapable (c == '\\' && !before) rest
    inferInstanceAs (Decidable ((isCanonical c = true ∨ before = false) ∧ Escapable _ rest))

theorem escapable_append (before : Bool) (as bs : List Char) :
    Escapable before (as ++ bs) ↔ Escapable before as ∧ Escapable (begun before as) bs := by
  induction as generalizing before with
  | nil => exact (and_iff_right trivial).symm
  | cons c as ih =>
      rw [List.cons_append, Escapable, Escapable, ih, and_assoc]
      rfl

theorem Escapable.suffix {before : Bool} {as bs : List Char} (h : Escapable before (as ++ bs)) :
    ∃ before', Escapable before' bs := ⟨_, ((escapable_append before as bs).mp h).2⟩

/-- What stands behind a character that is no backslash can be escaped from there. -/
theorem Escapable.tail {before : Bool} {c : Char} {cs : List Char} (hc : c ≠ '\\')
    (h : Escapable before (c :: cs)) : Escapable false cs := by
  have htail := h.2
  rwa [beq_false_of_ne hc, Bool.false_and] at htail

/-- Behind a backslash that begins an escape stands a canonical character. -/
theorem Escapable.escape {e : Char} {cs : List Char} (h : Escapable false ('\\' :: e :: cs)) :
    isCanonical e = true ∧ Escapable false cs := by
  obtain ⟨-, he, hcs⟩ := h
  refine ⟨he.resolve_right (by decide), ?_⟩
  rwa [show (('\\' : Char) == '\\' && !false) = true from rfl, Bool.not_true, Bool.and_false]
    at hcs

/-- Of the backslashes in front only the parity of their number matters. -/
theorem odd_backslashes (c : Char) (backslashes : Nat) :
    ((if c = '\\' then backslashes + 1 else 0) % 2 == 1)
      = (c == '\\' && !(backslashes % 2 == 1)) := by
  by_cases hslash : c = '\\'
  · rcases Nat.mod_two_eq_zero_or_one backslashes with h | h <;> simp [hslash, Nat.add_mod, h]
  · simp [hslash]

theorem ne_backslash_of_not_isCanonical {c : Char} (hc : isCanonical c = false) : c ≠ '\\' := by
  rintro rfl
  cases hc

theorem ofCharsFrom_eq_ok_iff (offset backslashes : Nat) (cs out : List Char) :
    ofCharsFrom offset backslashes cs = .ok out
      ↔ Escapable (backslashes % 2 == 1) cs ∧ out = form cs := by
  induction cs generalizing offset backslashes out with
  | nil =>
      rw [ofCharsFrom]
      constructor
      · rintro ⟨⟩
        exact ⟨trivial, rfl⟩
      · rintro ⟨-, rfl⟩
        rfl
  | cons c cs ih =>
      by_cases hc : isCanonical c = true
      · rw [ofCharsFrom_cons hc, Text.map_eq_ok_iff, form_cons hc, Escapable]
        simp only [ih, odd_backslashes, hc, true_or, true_and]
        constructor
        · rintro ⟨_, ⟨h, rfl⟩, rfl⟩
          exact ⟨h, rfl⟩
        · rintro ⟨h, rfl⟩
          exact ⟨_, ⟨h, rfl⟩, rfl⟩
      · rw [Bool.not_eq_true] at hc
        have hslash := ne_backslash_of_not_isCanonical hc
        rw [ofCharsFrom, form_cons_of_not hc, Escapable, beq_false_of_ne hslash, Bool.false_and, hc]
        by_cases hodd : backslashes % 2 = 1
        · simp [hodd]
        · have heven : (backslashes % 2 == 1) = false := beq_false_of_ne hodd
          simp only [Bool.false_eq_true, if_false, if_neg hodd, Text.map_eq_ok_iff, ih, heven,
            or_true, true_and]
          constructor
          · rintro ⟨_, ⟨h, rfl⟩, rfl⟩
            exact ⟨h, rfl⟩
          · rintro ⟨h, rfl⟩
            exact ⟨_, ⟨h, rfl⟩, rfl⟩

/-- The first character that has to be escaped, and stands behind the beginning of an escape, is
objected to. The error covers that backslash and what the escape would take. -/
theorem exists_of_ofCharsFrom_eq_error {offset backslashes : Nat} {cs : List Char} {e : ReadError}
    (h : ofCharsFrom offset backslashes cs = .error e) :
    ∃ before c rest, cs = before ++ c :: rest ∧ Escapable (backslashes % 2 == 1) before
      ∧ begun (backslashes % 2 == 1) before = true ∧ isCanonical c = false
      ∧ e = .malformedEscape (String.ofList ['\\', c])
        ⟨offset + (form before).length - 1,
          offset + (form before).length + (Text.charEscape c).length⟩ := by
  induction cs generalizing offset backslashes with
  | nil => cases h
  | cons c cs ih =>
      by_cases hc : isCanonical c = true
      · rw [ofCharsFrom_cons hc, Text.map_eq_error_iff] at h
        obtain ⟨before, d, rest, rfl, hbefore, hbegun, hd, rfl⟩ := ih h
        rw [odd_backslashes] at hbefore hbegun
        refine ⟨c :: before, d, rest, rfl, ⟨.inl hc, hbefore⟩, hbegun, hd, ?_⟩
        rw [form_cons hc, List.length_cons]
        congr 2 <;> omega
      · rw [Bool.not_eq_true] at hc
        rw [ofCharsFrom, hc, if_neg Bool.false_ne_true] at h
        by_cases hodd : backslashes % 2 = 1
        · simp only [if_pos hodd, Except.error.injEq] at h
          refine ⟨[], c, cs, rfl, trivial, beq_iff_eq.mpr hodd, hc, ?_⟩
          rw [Text.length_charEscape]
          exact h.symm
        · simp only [if_neg hodd, Text.map_eq_error_iff] at h
          obtain ⟨before, d, rest, rfl, hbefore, hbegun, hd, rfl⟩ := ih h
          have heven : (backslashes % 2 == 1) = false := beq_false_of_ne hodd
          have hslash : (c == '\\' && !false) = false := by
            rw [beq_false_of_ne (ne_backslash_of_not_isCanonical hc), Bool.false_and]
          rw [heven]
          refine ⟨c :: before, d, rest, rfl, ⟨.inr rfl, ?_⟩, ?_, hd, ?_⟩
          · rw [hslash]
            exact hbefore
          · rw [begun, List.foldl_cons, hslash]
            exact hbegun
          · have hlength := Text.length_charEscape c
            rw [form_cons_of_not hc, List.length_append]
            congr 2 <;> omega

/-- A text has a canonical form if it can be escaped. -/
theorem ofText_eq_ok_iff (text canonical : String) :
    ofText text = .ok canonical
      ↔ Escapable false text.toList ∧ canonical = String.ofList (form text.toList) := by
  rw [ofText, ofChars_eq, Text.map_eq_ok_iff]
  constructor
  · rintro ⟨_, h, rfl⟩
    obtain ⟨hescapable, rfl⟩ := (ofCharsFrom_eq_ok_iff 0 0 _ _).mp h
    exact ⟨hescapable, rfl⟩
  · rintro ⟨h, rfl⟩
    exact ⟨_, (ofCharsFrom_eq_ok_iff 0 0 _ _).mpr ⟨h, rfl⟩, rfl⟩

/-- A text that cannot be escaped is refused for that reason. -/
theorem exists_ofText_eq_error {text : String} (h : ¬ Escapable false text.toList) :
    ∃ escape span, ofText text = .error (.malformedEscape escape span) := by
  cases hchars : ofCharsFrom 0 0 text.toList with
  | ok out => exact absurd ((ofCharsFrom_eq_ok_iff 0 0 _ _).mp hchars).1 h
  | error e =>
      obtain ⟨before, c, rest, -, -, -, -, rfl⟩ := exists_of_ofCharsFrom_eq_error hchars
      exact ⟨_, _, by rw [ofText, ofChars_eq, hchars]; rfl⟩

/-! ## Resolving escapes -/

theorem isCanonical_of_isHexDigit {c : Char} (h : Text.isHexDigit c = true) :
    isCanonical c = true ∧ c ≠ '\\' := by
  have hall : ∀ n < 103, 48 ≤ n → isCanonical (Char.ofNat n) = true := by decide
  simp only [Text.isHexDigit, Char.isDigit, Bool.or_eq_true, Bool.and_eq_true,
    decide_eq_true_eq] at h
  have hbounds : 48 ≤ c.toNat ∧ c.toNat < 103 ∧ c.toNat ≠ 92 := by
    rcases h with (⟨hlow, hhigh⟩ | ⟨hlow, hhigh⟩) | ⟨hlow, hhigh⟩
    · have hlow : 48 ≤ c.toNat := hlow
      have hhigh : c.toNat ≤ 57 := hhigh
      omega
    · have hlow : 97 ≤ c.toNat := hlow
      have hhigh : c.toNat ≤ 102 := hhigh
      omega
    · have hlow : 65 ≤ c.toNat := hlow
      have hhigh : c.toNat ≤ 70 := hhigh
      omega
  constructor
  · have hcanonical := hall c.toNat hbounds.2.1 hbounds.1
    rwa [Char.ofNat_toNat] at hcanonical
  · rintro rfl
    exact hbounds.2.2 rfl

/-- The digits of an escape by number are canonical, so nothing among them is escaped. -/
theorem hexUnit?_form (cs : List Char) :
    Text.hexUnit? (form cs) = (Text.hexUnit? cs).map fun u => (u.1, form u.2) := by
  cases h : Text.hexUnit? cs with
  | some u =>
      obtain ⟨unit, after⟩ := u
      obtain ⟨a, b, c, d, rfl, ha, hb, hc, hd⟩ := Text.exists_digits_of_hexUnit? h
      rw [Text.hexUnit?, ha, hb, hc, hd] at h
      cases h
      rw [form_cons (isCanonical_of_isHexDigit ha).1, form_cons (isCanonical_of_isHexDigit hb).1,
        form_cons (isCanonical_of_isHexDigit hc).1, form_cons (isCanonical_of_isHexDigit hd).1,
        Text.hexUnit?, ha, hb, hc, hd]
      rfl
  | none =>
      cases hform : Text.hexUnit? (form cs) with
      | none => rfl
      | some u =>
          obtain ⟨a, b, c, d, hcs, ha, hb, hc, hd⟩ := Text.exists_digits_of_hexUnit? hform
          -- the digits stand in the text as well
          obtain ⟨-, _, rfl, h₁⟩ := exists_of_form_eq_cons (isCanonical_of_isHexDigit ha).2 hcs
          obtain ⟨-, _, rfl, h₂⟩ := exists_of_form_eq_cons (isCanonical_of_isHexDigit hb).2 h₁
          obtain ⟨-, _, rfl, h₃⟩ := exists_of_form_eq_cons (isCanonical_of_isHexDigit hc).2 h₂
          obtain ⟨-, _, rfl, -⟩ := exists_of_form_eq_cons (isCanonical_of_isHexDigit hd).2 h₃
          rw [Text.hexUnit?, ha, hb, hc, hd] at h
          cases h

theorem lowEscape?_of_ne {cs : List Char} (h : ∀ rest, cs ≠ '\\' :: 'u' :: rest) :
    Text.lowEscape? cs = none := by
  unfold Text.lowEscape?
  split
  · next rest => exact absurd rfl (h rest)
  · rfl

/-- The escape of a character is no second half of a pair. -/
theorem lowEscape?_charEscape_append (c : Char) (rest : List Char) :
    Text.lowEscape? (Text.charEscape c ++ rest) = none := by
  obtain ⟨unit, more, hescape, hunit, hlow⟩ := exists_charEscape_eq c
  rw [hescape, List.append_assoc, Text.unitEscape_eq, List.cons_append, List.cons_append,
    Text.lowEscape?, Text.hexUnit?_unitDigits hunit]
  exact Option.filter_some_neg hlow

theorem lowEscape?_form (cs : List Char) :
    Text.lowEscape? (form cs) = (Text.lowEscape? cs).map fun u => (u.1, form u.2) := by
  cases cs with
  | nil => rfl
  | cons c cs =>
      by_cases hc : isCanonical c = true
      · rw [form_cons hc]
        by_cases hslash : c = '\\' ∧ ∃ rest, cs = 'u' :: rest
        · obtain ⟨rfl, rest, rfl⟩ := hslash
          rw [form_cons (by decide), Text.lowEscape?, Text.lowEscape?, hexUnit?_form,
            Option.filter_map]
          rfl
        · have hne : ∀ rest, c :: cs ≠ '\\' :: 'u' :: rest := by
            rintro rest ⟨⟩
            exact hslash ⟨rfl, rest, rfl⟩
          have hne' : ∀ rest, c :: form cs ≠ '\\' :: 'u' :: rest := by
            intro rest heq
            obtain ⟨rfl, hcs⟩ := List.cons.inj heq
            obtain ⟨-, more, rfl, -⟩ := exists_of_form_eq_cons (by decide) hcs
            exact hne more rfl
          rw [lowEscape?_of_ne hne, lowEscape?_of_ne hne']
          rfl
      · rw [Bool.not_eq_true] at hc
        have hne : ∀ rest, c :: cs ≠ '\\' :: 'u' :: rest := by
          rintro rest ⟨⟩
          cases hc
        rw [form_cons_of_not hc, lowEscape?_charEscape_append, lowEscape?_of_ne hne]
        rfl

theorem unitChar_form {unit taken : Nat} {cs left : List Char} {d : Char}
    (h : Text.unitChar unit cs = (d, taken, left)) :
    Text.unitChar unit (form cs) = (d, taken, form left) := by
  unfold Text.unitChar at h ⊢
  rw [lowEscape?_form]
  split at h
  · next hhigh =>
    rw [if_pos hhigh]
    cases hlow : Text.lowEscape? cs with
    | none =>
        simp only [hlow, Prod.mk.injEq] at h
        obtain ⟨rfl, rfl, rfl⟩ := h
        rfl
    | some u =>
        simp only [hlow, Prod.mk.injEq] at h
        obtain ⟨rfl, rfl, rfl⟩ := h
        rfl
  · next hhigh =>
    simp only [Prod.mk.injEq] at h
    obtain ⟨rfl, rfl, rfl⟩ := h
    exact if_neg hhigh

/-- Behind an escape by number no escape is begun. -/
theorem Escapable.hexUnit {cs after : List Char} {unit : Nat}
    (h : Escapable false ('\\' :: 'u' :: cs)) (hunit : Text.hexUnit? cs = some (unit, after)) :
    Escapable false after := by
  obtain ⟨a, b, c, d, rfl, ha, hb, hc, hd⟩ := Text.exists_digits_of_hexUnit? hunit
  have hdigits := h.escape.2
  exact (((hdigits.tail (isCanonical_of_isHexDigit ha).2).tail
    (isCanonical_of_isHexDigit hb).2).tail (isCanonical_of_isHexDigit hc).2).tail
    (isCanonical_of_isHexDigit hd).2

theorem Escapable.unitChar {unit taken : Nat} {cs left : List Char} {d : Char}
    (h : Escapable false cs) (hd : Text.unitChar unit cs = (d, taken, left)) :
    Escapable false left := by
  have hleft : left = (Text.unitChar unit cs).2.2 := by rw [hd]
  rw [hleft, Text.unitChar]
  split
  · split
    · next low rest hlow =>
      unfold Text.lowEscape? at hlow
      split at hlow
      · exact h.hexUnit (Option.filter_eq_some_iff.mp hlow).1
      · cases hlow
    · exact h
  · exact h

/-- A text that does not resolve is not resolved, like one that is an error already. -/
theorem unescape_eq_ok_iff_of_not {cs : List Char} (h : ¬ Text.WellEscaped cs) (offset : Nat)
    (e : ReadError) (out : List Char) :
    Text.unescape offset cs = .ok out ↔ Except.error e = .ok out := by
  constructor
  · intro hout
    exact absurd ((Text.exists_unescape_iff offset cs).mp ⟨out, hout⟩) h
  · rintro ⟨⟩

/-- Escapes resolve in the canonical form of a text as they do in the text. -/
theorem unescape_form {cs : List Char} (h : Escapable false cs) (offset offset' : Nat)
    (out : List Char) :
    Text.unescape offset' (form cs) = .ok out ↔ Text.unescape offset cs = .ok out := by
  -- on the reader of the text as it is; at each piece its canonical form is one that is read alike
  fun_induction Text.unescape offset cs generalizing offset' out with
  | case1 => rw [form_nil, Text.unescape_nil]
  | case2 =>
      apply unescape_eq_ok_iff_of_not
      intro hw
      cases hw with
      | plain hc _ => exact absurd rfl hc
  | case3 offset rest hu =>
      rw [form_cons (by decide), form_cons (by decide)]
      apply unescape_eq_ok_iff_of_not
      intro hw
      obtain ⟨unit, after, hsome⟩ := Text.exists_hexUnit?_of_wellEscaped hw
      rw [hexUnit?_form, hu] at hsome
      cases hsome
  | case4 offset rest unit after hu _ d taken left hc _ ih =>
      have hunit : Text.hexUnit? (form rest) = some (unit, form after) := by
        rw [hexUnit?_form, hu]
        rfl
      rw [form_cons (by decide), form_cons (by decide),
        Text.unescape_unit hunit (unitChar_form hc), Text.map_eq_ok_iff, Text.map_eq_ok_iff]
      simp only [ih ((h.hexUnit hu).unitChar hc)]
  | case5 offset e rest hnot d hd ih =>
      obtain ⟨he, hrest⟩ := h.escape
      rw [form_cons (by decide), form_cons he, Text.unescape_simple hnot hd, Text.map_eq_ok_iff,
        Text.map_eq_ok_iff]
      simp only [ih hrest]
  | case6 offset e rest hnot hnone =>
      obtain ⟨he, -⟩ := h.escape
      rw [form_cons (by decide), form_cons he]
      apply unescape_eq_ok_iff_of_not
      rw [Text.wellEscaped_letter_iff hnot, ← Text.exists_simpleEscape?_iff, hnone]
      rintro ⟨⟨_, ⟨⟩⟩, -⟩
  | case7 offset c rest hc ih =>
      have hrest := h.tail hc
      by_cases hcanonical : isCanonical c = true
      · rw [form_cons hcanonical, Text.unescape_cons_of_ne hc, Text.map_eq_ok_iff,
          Text.map_eq_ok_iff]
        simp only [ih hrest]
      · rw [Bool.not_eq_true] at hcanonical
        rw [form_cons_of_not hcanonical, Text.unescape_charEscape_append, Text.map_eq_ok_iff,
          Text.map_eq_ok_iff]
        simp only [ih hrest]

end JsonAxes.Canonical
