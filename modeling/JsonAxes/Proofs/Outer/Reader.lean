import JsonAxes.Outer.Reader
import JsonAxes.Proofs.Outer.Number
import JsonAxes.Proofs.Standard.Literal

/-!
# The reader of exchange text

The reader in the outer layer reads standard text (`Outer.readsStandard_reader`).

What it takes a standard text for does not depend on what stands behind the text
(`Outer.IsLocal`), so that an element is taken for the same within an array and by itself, if as
many containers may be open. This goes along the grammar (`Standard.Written.isLocal`).
-/

set_option autoImplicit false

namespace JsonAxes

namespace Outer

open Standard Exchange Token

/-! ## String literals -/

section Literals

variable {c d : Char} {cs after rest rest' out : List Char}

theorem stringBody?_quote (rest : List Char) : stringBody? ('"' :: rest) = some ([], rest) := by
  rw [stringBody?, if_pos rfl]

/-- Behind a character that stands for itself the literal goes on. -/
theorem stringBody?_plain (hc : ' ' ≤ c ∧ c ≠ '"' ∧ c ≠ '\\') (cs : List Char) :
    stringBody? (c :: cs) = (stringBody? cs).map fun p => (c :: p.1, p.2) := by
  rw [stringBody?, if_neg hc.2.1, if_neg hc.2.2, if_neg (Char.not_lt.mpr hc.1)]

/-- A backslash begins an escape, and behind that the literal goes on. -/
theorem stringBody?_escape (cs : List Char) :
    stringBody? ('\\' :: cs)
      = (escape? cs).bind fun e => (stringBody? e.2).map fun p => (e.1 :: p.1, p.2) := by
  rw [stringBody?, if_neg (by decide), if_pos rfl]
  split
  · next h =>
    rw [h]
    rfl
  · next e after h =>
    show (stringBody? after).map _ = _
    rw [h]
    rfl

theorem escape?_letter {e : Char} (h : Text.simpleEscape? e = some c) (cs : List Char) :
    escape? (e :: cs) = some (c, cs) := by
  rw [escape?, h]
  · rfl
  · exact ne_of_simpleEscape? h

theorem escape?_unit (u : Standard.Digits) (cs : List Char) :
    escape? ('u' :: (u.chars ++ cs)) = pairedChar? u.unit cs := by
  rw [escape?, u.hexUnit?_append]
  rfl

/-- A high surrogate takes a low one along. -/
theorem pairedChar?_of_high {unit low : Nat} (hhigh : Text.isHighSurrogate unit = true)
    (hlow : Text.lowEscape? cs = some (low, after))
    (hc : Text.charOfCode? (Text.pairCode unit low) = some c) :
    pairedChar? unit cs = some (c, after) := by
  rw [pairedChar?, if_pos hhigh, hlow, Option.bind_eq_bind, Option.bind_some]
  dsimp only
  rw [hc]
  rfl

/-- The units of a pair are taken together. -/
theorem pairedChar?_of_isPair {u v : Standard.Digits} (h : isPair u v = true) (ps : List Part)
    (cs : List Char) : pairedChar? u.unit (body (.unit v :: ps) ++ cs)
      = some (charOf (Text.pairCode u.unit v.unit), body ps ++ cs) := by
  rw [isPair, Bool.and_eq_true] at h
  have hvalid := Text.isValidChar_pairCode h.1 h.2
  obtain ⟨c, hc⟩ := Option.isSome_iff_exists.mp (Text.isSome_charOfCode?_iff.mpr hvalid)
  have hchar : charOf (Text.pairCode u.unit v.unit) = c := by rw [charOf, hc, Option.getD_some]
  have hlow : Text.lowEscape? (body (.unit v :: ps) ++ cs) = some (v.unit, body ps ++ cs) := by
    rw [body_cons, List.append_assoc, v.lowEscape?_append, if_pos h.2]
  rw [hchar]
  exact pairedChar?_of_high h.1 hlow hc

/-- A unit by itself has to be a character. -/
theorem pairedChar?_alone {u : Standard.Digits}
    (h : Text.isHighSurrogate u.unit = true → Text.lowEscape? cs = none) :
    pairedChar? u.unit cs
      = if (Text.charOfCode? u.unit).isSome then some (charOf u.unit, cs) else none := by
  by_cases hhigh : Text.isHighSurrogate u.unit = true
  · rw [pairedChar?, if_pos hhigh, h hhigh, Text.charOfCode?_of_isHighSurrogate hhigh]
    rfl
  · rw [pairedChar?, if_neg hhigh, charOf]
    cases Text.charOfCode? u.unit with
    | none => rfl
    | some c => rfl

/-- What is read behind a character goes on a text in which the character stands in front. -/
theorem map_cons_eq_some_iff {o : Option (List Char × List Char)} {P : Prop} {cs : List Char}
    (h : ∀ out, o = some (out, rest') ↔ P ∧ out = cs ∧ rest' = rest) :
    (o.map fun p => (d :: p.1, p.2)) = some (out, rest') ↔ P ∧ out = d :: cs ∧ rest' = rest := by
  rw [Option.map_eq_some_iff]
  constructor
  · rintro ⟨⟨more, behind⟩, ho, heq⟩
    cases heq
    obtain ⟨hP, rfl, hrest⟩ := (h more).mp ho
    exact ⟨hP, rfl, hrest⟩
  · rintro ⟨hP, rfl, hrest⟩
    exact ⟨(cs, rest'), (h cs).mpr ⟨hP, rfl, hrest⟩, rfl⟩

/-- A literal is read if its surrogates come in pairs, as the text that it stands for. -/
theorem stringBody?_body_eq_some_iff {ps : List Part} :
    stringBody? (body ps ++ '"' :: rest) = some (out, rest')
      ↔ IsPaired ps ∧ out = resolved ps ∧ rest' = rest := by
  have hquote : ∀ more, '"' :: rest ≠ '\\' :: more := by
    rintro more ⟨⟩
  -- on how the parts are resolved, which takes the units of a pair together as the reader does
  fun_induction resolved ps generalizing out with
  | case1 =>
      rw [body, List.flatMap_nil, List.nil_append, stringBody?_quote, IsPaired]
      simp only [Option.some.injEq, Prod.mk.injEq, true_and]
      exact and_congr eq_comm eq_comm
  | case2 c hc ps ih =>
      rw [body_cons, Part.text, List.append_assoc, List.singleton_append, stringBody?_plain hc,
        IsPaired]
      exact map_cons_eq_some_iff fun out => ih
  | case3 e c he ps ih =>
      rw [body_cons, Part.text, List.append_assoc, List.cons_append, List.singleton_append,
        stringBody?_escape, escape?_letter he, Option.bind_some, IsPaired]
      exact map_cons_eq_some_iff fun out => ih
  | case4 u v ps hpair ih =>
      rw [body_cons, Part.text, List.append_assoc, List.cons_append, List.cons_append,
        stringBody?_escape, escape?_unit, pairedChar?_of_isPair hpair, Option.bind_some, IsPaired,
        if_pos hpair]
      dsimp only
      exact map_cons_eq_some_iff fun out => ih
  | case5 u v ps hpair ih =>
      rw [body_cons, Part.text, List.append_assoc, List.cons_append, List.cons_append,
        stringBody?_escape, escape?_unit,
        pairedChar?_alone fun hhigh => lowEscape?_body_of_not_isPair hpair hhigh ps _, IsPaired,
        if_neg hpair]
      split
      · next hsome =>
        rw [Option.bind_some, and_iff_right hsome]
        exact map_cons_eq_some_iff fun out => ih
      · next hnone => simp [hnone]
  | case6 u ps hne ih =>
      have hpaired : IsPaired (.unit u :: ps)
          ↔ (Text.charOfCode? u.unit).isSome = true ∧ IsPaired ps := by
        rw [IsPaired]
        exact hne
      rw [body_cons, Part.text, List.append_assoc, List.cons_append, List.cons_append,
        stringBody?_escape, escape?_unit,
        pairedChar?_alone fun _ => lowEscape?_body_eq_none hne hquote, hpaired]
      split
      · next hsome =>
        rw [Option.bind_some, and_iff_right hsome]
        exact map_cons_eq_some_iff fun out => ih
      · next hnone => simp [hnone]

/-- The same of a literal with its quotes. -/
theorem string?_literal_eq_some_iff {ps : List Part} {s : String} :
    string? (literal ps ++ rest) = some (s, rest')
      ↔ IsPaired ps ∧ s = literalValue ps ∧ rest' = rest := by
  have hliteral : literal ps ++ rest = '"' :: (body ps ++ '"' :: rest) := by
    rw [literal, List.cons_append, List.append_assoc, List.singleton_append]
  rw [hliteral, string?, Option.map_eq_some_iff]
  constructor
  · rintro ⟨⟨out, behind⟩, hout, heq⟩
    cases heq
    obtain ⟨hpaired, rfl, hrest⟩ := stringBody?_body_eq_some_iff.mp hout
    exact ⟨hpaired, rfl, hrest⟩
  · rintro ⟨hpaired, rfl, hrest⟩
    exact ⟨(resolved ps, rest'), stringBody?_body_eq_some_iff.mpr ⟨hpaired, rfl, hrest⟩, rfl⟩

end Literals

/-! ## White space -/

section Blanks

variable {gap : List Char}

theorem skipBlanks_append (h : IsBlank gap) (cs : List Char) :
    skipBlanks (gap ++ cs) = skipBlanks cs := by
  have hblank : ∀ c ∈ gap, Outer.isBlank c = true := h.all (by decide)
  exact List.dropWhile_append_of_pos hblank

theorem skipBlanks_cons {c : Char} (h : Outer.isBlank c = false) (cs : List Char) :
    skipBlanks (c :: cs) = c :: cs := List.dropWhile_cons_of_neg (Bool.eq_false_iff.mp h)

/-- A character behind white space is the one expected or another. -/
theorem expect?_append (h : IsBlank gap) {d : Char} (hd : Outer.isBlank d = false) (c : Char)
    (cs : List Char) : expect? c (gap ++ d :: cs) = if d = c then some cs else none := by
  rw [expect?, skipBlanks_append h, skipBlanks_cons hd]

theorem value?_append (h : IsBlank gap) (depth : Nat) (cs : List Char) :
    value? depth (gap ++ cs) = value? depth cs := by
  rw [value?.eq_def, value?.eq_def depth cs, skipBlanks_append h]

end Blanks

/-! ## Values by their first character -/

section First

variable (depth : Nat) (cs : List Char)

theorem value?_string : value? depth ('"' :: cs)
    = (string? ('"' :: cs)).map fun p => (.string p.1, p.2) := by
  cases depth <;> rfl

theorem value?_true : value? depth ("true".toList ++ cs) = some (.bool true, cs) := by
  cases depth <;> rfl

theorem value?_false : value? depth ("false".toList ++ cs) = some (.bool false, cs) := by
  cases depth <;> rfl

theorem value?_null : value? depth ("null".toList ++ cs) = some (.null, cs) := by
  cases depth <;> rfl

theorem value?_array_zero : value? 0 ('[' :: cs) = none := rfl

theorem value?_array : value? (depth + 1) ('[' :: cs)
    = (container? (value? depth) ']' cs).map fun p => (.array p.1, p.2) := rfl

theorem value?_object_zero : value? 0 ('\x7b' :: cs) = none := rfl

theorem value?_object : value? (depth + 1) ('\x7b' :: cs)
    = (container? (member? (value? depth)) '\x7d' cs).map
      fun p => (.object (Members.ofList p.1), p.2) := rfl

theorem isBlank_of_numeral {c : Char} (h : c = '-' ∨ c.isDigit = true) :
    Outer.isBlank c = false := by
  have hne := fun d => @ne_of_numeral c d h
  simp only [Outer.isBlank, Bool.or_eq_false_iff, beq_eq_false_iff_ne]
  exact ⟨⟨⟨hne _ (by decide) rfl, hne _ (by decide) rfl⟩, hne _ (by decide) rfl⟩,
    hne _ (by decide) rfl⟩

/-- A digit or a minus sign begins a number. -/
theorem value?_number {c : Char} (h : c = '-' ∨ c.isDigit = true) :
    value? depth (c :: cs) = number? (c :: cs) := by
  have hne := fun d => @ne_of_numeral c d h
  rw [value?.eq_def, skipBlanks_cons (isBlank_of_numeral h)]
  simp only [if_neg (hne '"' (by decide) rfl), if_neg (hne '[' (by decide) rfl),
    if_neg (hne '\x7b' (by decide) rfl), if_neg (hne 't' (by decide) rfl),
    if_neg (hne 'f' (by decide) rfl), if_neg (hne 'n' (by decide) rfl)]

end First

/-! ## More containers -/

section Depth

variable {α : Type} {read read' : List Char → Option (α × List Char)}

theorem items?_mono (h : ∀ cs r, read cs = some r → read' cs = some r) {closing : Char} {n : Nat}
    {cs : List Char} {r : List α × List Char} (hr : items? read closing n cs = some r) :
    items? read' closing n cs = some r := by
  induction n generalizing cs r with
  | zero => cases hr
  | succ n ih =>
      rw [items?] at hr ⊢
      cases hread : read cs with
      | none =>
          rw [hread] at hr
          cases hr
      | some p =>
          rw [hread] at hr
          rw [h cs p hread]
          dsimp only at hr ⊢
          cases hcomma : expect? ',' p.2 with
          | none =>
              rw [hcomma] at hr
              exact hr
          | some rest =>
              rw [hcomma] at hr
              obtain ⟨q, hq, rfl⟩ := Option.map_eq_some_iff.mp hr
              dsimp only
              rw [ih hq]
              rfl

theorem container?_mono (h : ∀ cs r, read cs = some r → read' cs = some r) {closing : Char}
    {cs : List Char} {r : List α × List Char} (hr : container? read closing cs = some r) :
    container? read' closing cs = some r := by
  rw [container?] at hr ⊢
  cases hclosed : expect? closing cs with
  | some rest =>
      rw [hclosed] at hr
      exact hr
  | none =>
      rw [hclosed] at hr
      exact items?_mono h hr

theorem member?_mono {read read' : List Char → Option (Exchange × List Char)}
    (h : ∀ cs r, read cs = some r → read' cs = some r) (cs : List Char)
    (r : (String × Exchange) × List Char) (hr : member? read cs = some r) :
    member? read' cs = some r := by
  obtain ⟨k, hkey, hvalue⟩ := Option.bind_eq_some_iff.mp hr
  obtain ⟨p, hp, rfl⟩ := Option.map_eq_some_iff.mp hvalue
  obtain ⟨rest, hcolon, hread⟩ := Option.bind_eq_some_iff.mp hp
  rw [member?, hkey, Option.bind_some]
  dsimp only
  rw [hcolon, Option.bind_some, h rest p hread]
  rfl

/-- What is read with so many containers is read with one more. -/
theorem value?_succ {depth : Nat} (cs : List Char) (r : Exchange × List Char)
    (h : value? depth cs = some r) : value? (depth + 1) cs = some r := by
  induction depth generalizing cs r with
  | zero =>
      rw [value?.eq_def] at h ⊢
      split at h
      · cases h
      · next c rest _ =>
        by_cases hstring : c = '"'
        · simpa only [if_pos hstring] using h
        by_cases harray : c = '['
        · simp only [if_neg hstring, if_pos harray] at h
          cases h
        by_cases hobject : c = '\x7b'
        · simp only [if_neg hstring, if_neg harray, if_pos hobject] at h
          cases h
        simpa only [if_neg hstring, if_neg harray, if_neg hobject] using h
  | succ depth ih =>
      rw [value?.eq_def] at h ⊢
      split at h
      · cases h
      · next c rest _ =>
        by_cases hstring : c = '"'
        · simpa only [if_pos hstring] using h
        by_cases harray : c = '['
        · simp only [if_neg hstring, if_pos harray] at h ⊢
          obtain ⟨p, hp, rfl⟩ := Option.map_eq_some_iff.mp h
          rw [container?_mono ih hp]
          rfl
        by_cases hobject : c = '\x7b'
        · simp only [if_neg hstring, if_neg harray, if_pos hobject] at h ⊢
          obtain ⟨p, hp, rfl⟩ := Option.map_eq_some_iff.mp h
          rw [container?_mono (member?_mono ih) hp]
          rfl
        simpa only [if_neg hstring, if_neg harray, if_neg hobject] using h

theorem value?_mono {depth depth' : Nat} (hdepth : depth ≤ depth') (cs : List Char)
    (r : Exchange × List Char) (h : value? depth cs = some r) : value? depth' cs = some r := by
  induction hdepth with
  | refl => exact h
  | step _ ih => exact value?_succ cs r ih

end Depth

/-! ## Whatever stands behind a text -/

/-- Whether a text is taken for something, whatever stands behind it, and at most white space of the
text is left behind. -/
def Takes {α : Type} (read : List Char → Option (α × List Char)) (cs : List Char) (y : α) : Prop :=
  ∃ gap, IsBlank gap ∧ ∀ rest, EndsNumeral rest → read (cs ++ rest) = some (y, gap ++ rest)

/-- Whether what a text is taken for does not depend on what stands behind it. -/
def IsLocal {α : Type} (read : List Char → Option (α × List Char)) (cs : List Char) : Prop :=
  ∀ y rest rest', EndsNumeral rest → read (cs ++ rest) = some (y, rest') → Takes read cs y

/-- Whether a text is taken for just what has a property, whatever stands behind it, and nothing of
it is left behind. -/
def Reads {α : Type} (read : List Char → Option (α × List Char)) (cs : List Char)
    (P : α → Prop) : Prop :=
  ∀ rest y rest', EndsNumeral rest → (read (cs ++ rest) = some (y, rest') ↔ P y ∧ rest' = rest)

section Locality

variable {α : Type} {read read' : List Char → Option (α × List Char)} {cs : List Char} {y : α}
  {P : α → Prop}

theorem Takes.mono (h : Takes read cs y) (hread : ∀ cs r, read cs = some r → read' cs = some r) :
    Takes read' cs y := by
  obtain ⟨gap, hgap, htakes⟩ := h
  exact ⟨gap, hgap, fun rest hrest => hread _ _ (htakes rest hrest)⟩

theorem Reads.takes_iff (h : Reads read cs P) : Takes read cs y ↔ P y := by
  constructor
  · rintro ⟨gap, -, htakes⟩
    exact ((h [] y _ endsNumeral_nil).mp (htakes [] endsNumeral_nil)).1
  · exact fun hy => ⟨[], isBlank_nil, fun rest hrest => (h rest y rest hrest).mpr ⟨hy, rfl⟩⟩

theorem Reads.isLocal (h : Reads read cs P) : IsLocal read cs :=
  fun y rest rest' hrest hread => h.takes_iff.mpr ((h rest y rest' hrest).mp hread).1

/-- White space around a text does not count. -/
theorem IsLocal.takes_padded_iff {before behind : List Char} (h : IsLocal read cs)
    (hskip : ∀ cs, read (before ++ cs) = read cs) (hbehind : IsBlank behind) :
    Takes read (before ++ (cs ++ behind)) y ↔ Takes read cs y := by
  have hread : ∀ rest, read (before ++ (cs ++ behind) ++ rest) = read (cs ++ (behind ++ rest)) := by
    intro rest
    rw [List.append_assoc, List.append_assoc, hskip]
  constructor
  · rintro ⟨gap, -, htakes⟩
    have hnil := htakes [] endsNumeral_nil
    rw [hread] at hnil
    exact h y _ _ (hbehind.endsNumeral.append endsNumeral_nil) hnil
  · rintro ⟨gap, hgap, htakes⟩
    refine ⟨gap ++ behind, hgap.append hbehind, fun rest hrest => ?_⟩
    rw [hread, htakes _ (hbehind.endsNumeral.append hrest), List.append_assoc]

theorem IsLocal.padded {before behind : List Char} (h : IsLocal read cs)
    (hskip : ∀ cs, read (before ++ cs) = read cs) (hbehind : IsBlank behind) :
    IsLocal read (before ++ (cs ++ behind)) := by
  intro y rest rest' hrest hread
  rw [List.append_assoc, List.append_assoc, hskip] at hread
  exact (h.takes_padded_iff hskip hbehind).mpr
    (h y _ rest' (hbehind.endsNumeral.append hrest) hread)

end Locality

/-! ### Values that are no containers -/

section Plain

variable (depth : Nat)

theorem reads_string (ps : List Part) : Reads (value? depth) (literal ps)
    fun y => IsPaired ps ∧ y = .string (literalValue ps) := by
  intro rest y rest' _
  rw [literal, List.cons_append, value?_string, ← List.cons_append, ← literal,
    Option.map_eq_some_iff]
  constructor
  · rintro ⟨⟨s, behind⟩, hs, heq⟩
    cases heq
    obtain ⟨hpaired, rfl, hrest⟩ := string?_literal_eq_some_iff.mp hs
    exact ⟨⟨hpaired, rfl⟩, hrest⟩
  · rintro ⟨⟨hpaired, rfl⟩, hrest⟩
    exact ⟨(literalValue ps, rest'), string?_literal_eq_some_iff.mpr ⟨hpaired, rfl, hrest⟩, rfl⟩

theorem reads_number (n : Numeral) :
    Reads (value? depth) n.text fun y => n.exchanged? = some y := by
  intro rest y rest' hrest
  obtain ⟨c, cs, hcs, hc⟩ := exists_cons_text n
  rw [hcs, List.cons_append, value?_number depth _ hc, ← List.cons_append, ← hcs,
    n.number?_text_append hrest, Option.map_eq_some_iff]
  simp only [Prod.mk.injEq]
  constructor
  · rintro ⟨_, hy, rfl, rfl⟩
    exact ⟨hy, rfl⟩
  · rintro ⟨hy, rfl⟩
    exact ⟨y, hy, rfl, rfl⟩

/-- What is taken for one thing whatever stands behind it. -/
theorem reads_of_eq {α : Type} {read : List Char → Option (α × List Char)} {cs : List Char} {x : α}
    (h : ∀ rest, read (cs ++ rest) = some (x, rest)) : Reads read cs (· = x) := by
  intro rest y rest' _
  rw [h, Option.some_inj, Prod.mk.injEq]
  exact and_congr eq_comm eq_comm

theorem reads_null : Reads (value? depth) nullText (· = .null) := reads_of_eq (value?_null depth)

theorem reads_bool (b : Bool) : Reads (value? depth) (boolText b) (· = .bool b) := by
  cases b with
  | true => exact reads_of_eq (value?_true depth)
  | false => exact reads_of_eq (value?_false depth)

end Plain

/-! ## Containers -/

/-- Whether a character closes a container. -/
def IsClosing (c : Char) : Prop := c = ']' ∨ c = '\x7d'

namespace IsClosing

variable {c : Char} (h : IsClosing c)

include h

theorem isBlank : Outer.isBlank c = false := by
  rcases h with rfl | rfl <;> rfl

theorem ne_comma : c ≠ ',' := by
  rcases h with rfl | rfl <;> decide

theorem endsNumeral (rest : List Char) : EndsNumeral (c :: rest) := by
  apply endsNumeral_cons
  rcases h with rfl | rfl <;> decide

end IsClosing

section Items

variable {α : Type} {read : List Char → Option (α × List Char)} {closing : Char}
  {first : List Char} {more : List (List Char)} {ys : List α} {rest rest' : List Char} {n : Nat}

/-- Items are read where each text is taken for one. -/
theorem items?_of_takes (hclosing : IsClosing closing)
    (htakes : (first :: more).Forall₂ (Takes read) ys) (hn : more.length < n) :
    items? read closing n (first ++ (more.flatMap (',' :: ·) ++ closing :: rest))
      = some (ys, rest) := by
  induction more generalizing first ys n with
  | nil =>
      obtain ⟨n, rfl⟩ := Nat.exists_eq_succ_of_ne_zero (Nat.ne_zero_of_lt hn)
      obtain ⟨y, _, ⟨gap, hgap, hfirst⟩, hnil, rfl⟩ := List.forall₂_cons_left_iff.mp htakes
      cases hnil
      rw [List.flatMap_nil, List.nil_append, items?, hfirst _ (hclosing.endsNumeral rest)]
      dsimp only
      rw [expect?_append hgap hclosing.isBlank, if_neg hclosing.ne_comma,
        expect?_append hgap hclosing.isBlank, if_pos rfl]
      rfl
  | cons second more ih =>
      obtain ⟨n, rfl⟩ := Nat.exists_eq_succ_of_ne_zero (Nat.ne_zero_of_lt hn)
      obtain ⟨y, zs, ⟨gap, hgap, hfirst⟩, hmore, rfl⟩ := List.forall₂_cons_left_iff.mp htakes
      rw [List.flatMap_cons, List.cons_append, List.cons_append, List.append_assoc, items?,
        hfirst _ (endsNumeral_cons (by decide) _)]
      dsimp only
      rw [expect?_append hgap rfl, if_pos rfl]
      dsimp only
      rw [ih hmore (Nat.lt_of_succ_lt_succ hn)]
      rfl

/-- Where items are read, each of the texts is taken for one. -/
theorem takes_of_items? (hclosing : IsClosing closing)
    (hlocal : ∀ cs ∈ first :: more, IsLocal read cs)
    (h : items? read closing n (first ++ (more.flatMap (',' :: ·) ++ closing :: rest))
      = some (ys, rest')) : (first :: more).Forall₂ (Takes read) ys := by
  induction more generalizing first ys n with
  | nil =>
      cases n with
      | zero => cases h
      | succ n =>
          rw [List.flatMap_nil, List.nil_append, items?] at h
          split at h
          · cases h
          · next y behind hread =>
            have hends := hclosing.endsNumeral rest
            have hfirst := hlocal first List.mem_cons_self y _ behind hends hread
            obtain ⟨gap, hgap, htaken⟩ := hfirst
            cases hread.symm.trans (htaken _ hends)
            rw [expect?_append hgap hclosing.isBlank, if_neg hclosing.ne_comma] at h
            obtain ⟨_, -, heq⟩ := Option.map_eq_some_iff.mp h
            cases heq
            exact .cons ⟨gap, hgap, htaken⟩ .nil
  | cons second more ih =>
      cases n with
      | zero => cases h
      | succ n =>
          rw [List.flatMap_cons, List.cons_append, List.cons_append, List.append_assoc, items?]
            at h
          split at h
          · cases h
          · next y behind hread =>
            have hends := endsNumeral_cons (c := ',') (by decide)
              (second ++ (more.flatMap (',' :: ·) ++ closing :: rest))
            have hfirst := hlocal first List.mem_cons_self y _ behind hends hread
            obtain ⟨gap, hgap, htaken⟩ := hfirst
            cases hread.symm.trans (htaken _ hends)
            rw [expect?_append hgap rfl, if_pos rfl] at h
            obtain ⟨⟨zs, _⟩, hzs, heq⟩ := Option.map_eq_some_iff.mp h
            cases heq
            have hmore := ih (fun cs hcs => hlocal cs (List.mem_cons_of_mem first hcs)) hzs
            exact .cons ⟨gap, hgap, htaken⟩ hmore

/-- There are no more items than characters. -/
theorem length_le_length_flatMap (more : List (List Char)) :
    more.length ≤ (more.flatMap (',' :: ·)).length := by
  induction more with
  | nil => exact Nat.le_refl 0
  | cons cs more ih =>
      simp only [List.flatMap_cons, List.length_append, List.length_cons]
      omega

/-- What is read between brackets, of which the closing one does not come at once. -/
theorem container?_eq_some_iff (hclosing : IsClosing closing)
    (hlocal : ∀ cs ∈ first :: more, IsLocal read cs)
    (hopen : ∀ cs, expect? closing (first ++ cs) = none) :
    container? read closing (first ++ (more.flatMap (',' :: ·) ++ closing :: rest))
        = some (ys, rest')
      ↔ (first :: more).Forall₂ (Takes read) ys ∧ rest' = rest := by
  have hcount : more.length
      < (first ++ (more.flatMap (',' :: ·) ++ closing :: rest)).length := by
    have hle := length_le_length_flatMap more
    simp only [List.length_append, List.length_cons]
    omega
  rw [container?, hopen]
  constructor
  · intro h
    have htakes := takes_of_items? hclosing hlocal h
    cases h.symm.trans (items?_of_takes hclosing htakes hcount)
    exact ⟨htakes, rfl⟩
  · rintro ⟨htakes, rfl⟩
    exact items?_of_takes hclosing htakes hcount

end Items

/-- What is read between brackets with only white space between them. -/
theorem container?_append {α : Type} (read : List Char → Option (α × List Char)) {closing : Char}
    (hclosing : IsClosing closing) {gap : List Char} (hgap : IsBlank gap) (rest : List Char) :
    container? read closing (gap ++ closing :: rest) = some ([], rest) := by
  rw [container?, expect?_append hgap hclosing.isBlank, if_pos rfl]

/-- Pieces with commas between them are the first and then each other behind a comma. -/
theorem bracketed_cons_append (opening closing : Char) (piece : List Char)
    (pieces : List (List Char)) (rest : List Char) :
    bracketed opening closing (piece :: pieces) ++ rest
      = opening :: (piece ++ (pieces.flatMap (',' :: ·) ++ closing :: rest)) := by
  simp [bracketed_cons]

section Containers

variable {gap : List Char}

theorem reads_emptyArray (depth : Nat) (hgap : IsBlank gap) :
    Reads (value? depth) ('[' :: (gap ++ [']'])) fun y => 0 < depth ∧ y = .array [] := by
  intro rest y rest' _
  rw [List.cons_append, List.append_assoc, List.singleton_append]
  cases depth with
  | zero => simp [value?_array_zero]
  | succ depth =>
      rw [value?_array, container?_append _ (.inl rfl) hgap]
      simp [eq_comm]

theorem reads_emptyObject (depth : Nat) (hgap : IsBlank gap) :
    Reads (value? depth) ('\x7b' :: (gap ++ ['\x7d'])) fun y => 0 < depth ∧ y = .object [] := by
  intro rest y rest' _
  rw [List.cons_append, List.append_assoc, List.singleton_append]
  cases depth with
  | zero => simp [value?_object_zero]
  | succ depth =>
      rw [value?_object, container?_append _ (.inr rfl) hgap]
      simp [eq_comm, Members.ofList, Members.setAll]

end Containers

/-! ### Members -/

section Members

variable {read : List Char → Option (Exchange × List Char)} {e : Entry}

theorem member?_chars (hbefore : IsBlank e.before) (rest : List Char) :
    member? read (e.chars ++ rest)
      = (string? (literal e.key ++ (e.behind ++ ':' :: (e.text ++ rest)))).bind fun p =>
        ((expect? ':' p.2).bind read).map fun q => ((p.1, q.1), q.2) := by
  have hchars : e.chars ++ rest
      = e.before ++ (literal e.key ++ (e.behind ++ ':' :: (e.text ++ rest))) := by
    simp [Entry.chars]
  rw [member?, hchars, skipBlanks_append hbefore, literal, List.cons_append, skipBlanks_cons rfl]

theorem member?_chars_eq_some_iff (hbefore : IsBlank e.before) (hbehind : IsBlank e.behind)
    {rest rest' : List Char} {m : String × Exchange} :
    member? read (e.chars ++ rest) = some (m, rest')
      ↔ IsPaired e.key ∧ m.1 = literalValue e.key
        ∧ read (e.text ++ rest) = some (m.2, rest') := by
  rw [member?_chars hbefore, Option.bind_eq_some_iff]
  constructor
  · rintro ⟨⟨key, behind⟩, hkey, hvalue⟩
    obtain ⟨hpaired, rfl, rfl⟩ := string?_literal_eq_some_iff.mp hkey
    rw [expect?_append hbehind rfl, if_pos rfl, Option.bind_some] at hvalue
    obtain ⟨⟨y, _⟩, hy, heq⟩ := Option.map_eq_some_iff.mp hvalue
    cases heq
    exact ⟨hpaired, rfl, hy⟩
  · rintro ⟨hpaired, hkey, hy⟩
    refine ⟨_, string?_literal_eq_some_iff.mpr ⟨hpaired, hkey, rfl⟩, ?_⟩
    rw [expect?_append hbehind rfl, if_pos rfl, Option.bind_some, hy]
    rfl

/-- A member is taken for its key and what its value is taken for. -/
theorem takes_member_iff (hbefore : IsBlank e.before) (hbehind : IsBlank e.behind)
    {m : String × Exchange} : Takes (member? read) e.chars m
      ↔ IsPaired e.key ∧ m.1 = literalValue e.key ∧ Takes read e.text m.2 := by
  constructor
  · rintro ⟨gap, hgap, htakes⟩
    have hmember := fun rest hrest =>
      (member?_chars_eq_some_iff hbefore hbehind).mp (htakes rest hrest)
    obtain ⟨hpaired, hkey, -⟩ := hmember [] endsNumeral_nil
    exact ⟨hpaired, hkey, gap, hgap, fun rest hrest => (hmember rest hrest).2.2⟩
  · rintro ⟨hpaired, hkey, gap, hgap, htakes⟩
    exact ⟨gap, hgap, fun rest hrest => (member?_chars_eq_some_iff hbefore hbehind).mpr
      ⟨hpaired, hkey, htakes rest hrest⟩⟩

theorem forall₂_takes_member_iff {entries : List Entry} (hentries : ∀ e ∈ entries, e.IsPadded)
    {ns : List (String × Exchange)} :
    (entries.map Entry.chars).Forall₂ (Takes (member? read)) ns
      ↔ entries.Forall₂ (fun e n => IsPaired e.key ∧ n.1 = literalValue e.key
        ∧ Takes read e.text n.2) ns := by
  induction entries generalizing ns with
  | nil => rw [List.map_nil, List.forall₂_nil_left_iff, List.forall₂_nil_left_iff]
  | cons e entries ih =>
      obtain ⟨he, hrest⟩ := List.forall_mem_cons.mp hentries
      rw [List.map_cons, List.forall₂_cons_left_iff, List.forall₂_cons_left_iff]
      simp only [takes_member_iff he.before he.behind, ih hrest]

theorem IsLocal.member (h : IsLocal read e.text) (hbefore : IsBlank e.before)
    (hbehind : IsBlank e.behind) : IsLocal (member? read) e.chars := by
  intro m rest rest' hrest hread
  obtain ⟨hpaired, hkey, hy⟩ := (member?_chars_eq_some_iff hbefore hbehind).mp hread
  exact (takes_member_iff hbefore hbehind).mpr ⟨hpaired, hkey, h m.2 rest rest' hrest hy⟩

end Members

/-! ## Along the grammar -/

/-- The text of a value does not begin like the end of an array. -/
theorem exists_cons_of_written {x : Standard} {cs : List Char} (h : Written x cs) :
    ∃ c more, cs = c :: more ∧ Outer.isBlank c = false ∧ c ≠ ']' := by
  cases h with
  | string ps => exact ⟨'"', _, rfl, rfl, by decide⟩
  | number n _ =>
      obtain ⟨c, more, hcs, hc⟩ := exists_cons_text n
      exact ⟨c, more, hcs, isBlank_of_numeral hc, ne_of_numeral hc (by decide) rfl⟩
  | bool b =>
      cases b with
      | true => exact ⟨'t', _, rfl, rfl, by decide⟩
      | false => exact ⟨'f', _, rfl, rfl, by decide⟩
  | null => exact ⟨'n', _, rfl, rfl, by decide⟩
  | emptyArray | array => exact ⟨'[', _, rfl, rfl, by decide⟩
  | emptyObject | object => exact ⟨'\x7b', _, rfl, rfl, by decide⟩

theorem expect?_of_isPadded {cs : List Char} (h : IsPadded cs) (rest : List Char) :
    expect? ']' (cs ++ rest) = none := by
  obtain ⟨x, hbefore, hx, _⟩ := h
  obtain ⟨c, more, rfl, hc, hne⟩ := exists_cons_of_written hx
  rw [List.append_assoc, List.cons_append, List.cons_append, expect?_append hbefore hc,
    if_neg hne]

theorem expect?_chars {e : Entry} (h : IsBlank e.before) (rest : List Char) :
    expect? '\x7d' (e.chars ++ rest) = none := by
  rw [Entry.chars, List.append_assoc, literal, List.cons_append, List.cons_append,
    expect?_append h rfl, if_neg (by decide)]

/-- A container is taken for what is made of what the texts in it are taken for. -/
theorem reads_container {α : Type} {read : List Char → Option (α × List Char)}
    {opening closing : Char} (wrap : List α → Exchange) {depth : Nat} {first : List Char}
    {more : List (List Char)} (hclosing : IsClosing closing)
    (hvalue : ∀ cs, value? depth (opening :: cs)
      = (container? read closing cs).map fun p => (wrap p.1, p.2))
    (hlocal : ∀ cs ∈ first :: more, IsLocal read cs)
    (hopen : ∀ cs, expect? closing (first ++ cs) = none) :
    Reads (value? depth) (bracketed opening closing (first :: more)) fun y =>
      ∃ ys, (first :: more).Forall₂ (Takes read) ys ∧ y = wrap ys := by
  intro rest y rest' _
  rw [bracketed_cons_append, hvalue, Option.map_eq_some_iff]
  constructor
  · rintro ⟨⟨ys, behind⟩, hys, heq⟩
    cases heq
    obtain ⟨htakes, hrest⟩ := (container?_eq_some_iff hclosing hlocal hopen).mp hys
    exact ⟨⟨ys, htakes, rfl⟩, hrest⟩
  · rintro ⟨⟨ys, htakes, rfl⟩, hrest⟩
    exact ⟨(ys, rest'), (container?_eq_some_iff hclosing hlocal hopen).mpr ⟨htakes, hrest⟩, rfl⟩

/-- An array is taken for what its elements are taken for. -/
theorem reads_array {texts : List (List Char)} (depth : Nat) (hne : texts ≠ [])
    (htexts : ∀ cs ∈ texts, IsPadded cs)
    (hlocal : ∀ depth, ∀ cs ∈ texts, IsLocal (value? depth) cs) :
    Reads (value? depth) (bracketed '[' ']' texts) fun y => ∃ inner, depth = inner + 1
      ∧ ∃ ys, texts.Forall₂ (Takes (value? inner)) ys ∧ y = .array ys := by
  obtain ⟨first, more, rfl⟩ := List.exists_cons_of_ne_nil hne
  have hopen := expect?_of_isPadded (htexts first List.mem_cons_self)
  cases depth with
  | zero =>
      intro rest y rest' _
      simp [bracketed_cons_append, value?_array_zero]
  | succ depth =>
      have hreads := reads_container .array (.inl rfl) (value?_array depth) (hlocal depth) hopen
      simpa only [Nat.add_right_cancel_iff, exists_eq_left'] using hreads

/-- An object is made of its keys and what its values are taken for. -/
theorem reads_object {entries : List Entry} (depth : Nat) (hne : entries ≠ [])
    (hentries : ∀ e ∈ entries, e.IsPadded)
    (hlocal : ∀ depth, ∀ e ∈ entries, IsLocal (value? depth) e.text) :
    Reads (value? depth) (bracketed '\x7b' '\x7d' (entries.map Entry.chars)) fun y =>
      ∃ inner, depth = inner + 1 ∧ ∃ ns, entries.Forall₂ (fun e n => IsPaired e.key
        ∧ n.1 = literalValue e.key ∧ Takes (value? inner) e.text n.2) ns
        ∧ y = .object (Members.ofList ns) := by
  have hmember : ∀ depth, ∀ cs ∈ entries.map Entry.chars, IsLocal (member? (value? depth)) cs := by
    intro depth cs hcs
    obtain ⟨e, he, rfl⟩ := List.mem_map.mp hcs
    exact (hlocal depth e he).member (hentries e he).before (hentries e he).behind
  simp only [← forall₂_takes_member_iff hentries]
  obtain ⟨first, more, rfl⟩ := List.exists_cons_of_ne_nil hne
  have hopen := expect?_chars (hentries first List.mem_cons_self).before
  rw [List.map_cons] at hmember ⊢
  cases depth with
  | zero =>
      intro rest y rest' _
      simp [bracketed_cons_append, value?_object_zero]
  | succ depth =>
      have hreads := reads_container (fun ns => .object (Members.ofList ns)) (.inr rfl)
        (value?_object depth) (hmember depth) hopen
      simpa only [Nat.add_right_cancel_iff, exists_eq_left'] using hreads

theorem isLocal_of_paddedWith {x : Standard} {cs : List Char} (depth : Nat)
    (h : PaddedWith (fun _ cs => ∀ depth, IsLocal (value? depth) cs) x cs) :
    IsLocal (value? depth) cs := by
  obtain ⟨before, core, behind, hbefore, hbehind, -, hlocal, rfl⟩ := h.exists_written
  exact (hlocal depth).padded (value?_append hbefore depth) hbehind

/-- What the text of a value is taken for does not depend on what stands behind it. -/
theorem hereditary_isLocal : Hereditary fun _ cs => ∀ depth, IsLocal (value? depth) cs where
  string ps depth := (reads_string depth ps).isLocal
  number n _ depth := (reads_number depth n).isLocal
  bool b depth := (reads_bool depth b).isLocal
  null depth := (reads_null depth).isLocal
  emptyArray hgap depth := (reads_emptyArray depth hgap).isLocal
  emptyObject hgap depth := (reads_emptyObject depth hgap).isLocal
  array hne h depth := by
    have htexts := forall_of_forall₂ h fun _ _ => PaddedWith.isPadded
    have hlocal := fun depth => forall_of_forall₂ h fun _ _ => isLocal_of_paddedWith depth
    exact (reads_array depth hne htexts hlocal).isLocal
  object hne h depth := by
    have hentries := forall_of_forall₂ h fun _ _ => EntryWith.isPadded
    have hlocal := fun depth =>
      forall_of_forall₂ h fun _ _ he => isLocal_of_paddedWith depth he.text
    exact (reads_object depth hne hentries hlocal).isLocal

theorem isLocal_of_isPadded {cs : List Char} (h : IsPadded cs) (depth : Nat) :
    IsLocal (value? depth) cs := by
  obtain ⟨x, hx⟩ := h
  exact isLocal_of_paddedWith depth (hereditary_isLocal.padded hx)

/-! ## Whole texts -/

section Whole

variable {cs : List Char} {y : Exchange} {P : Exchange → Prop}

theorem reader_of_takes (h : Takes (value? nestingLimit) cs y) :
    reader (String.ofList cs) = some y := by
  obtain ⟨gap, hgap, htakes⟩ := h
  have hread := htakes [] endsNumeral_nil
  have hend : skipBlanks gap = [] := by
    have hskip := skipBlanks_append hgap []
    rwa [List.append_nil] at hskip
  rw [List.append_nil, List.append_nil] at hread
  rw [reader, String.toList_ofList, hread, Option.bind_some]
  simp [hend]

theorem takes_of_reader (h : IsLocal (value? nestingLimit) cs)
    (hread : reader (String.ofList cs) = some y) : Takes (value? nestingLimit) cs y := by
  rw [reader, String.toList_ofList, ← List.append_nil cs] at hread
  obtain ⟨⟨z, rest⟩, hz, hend⟩ := Option.bind_eq_some_iff.mp hread
  dsimp only at hend
  split at hend
  · cases hend
    exact h _ _ _ endsNumeral_nil hz
  · cases hend

theorem Reads.of_reader (h : Reads (value? nestingLimit) cs P)
    (hread : reader (String.ofList cs) = some y) : P y :=
  h.takes_iff.mp (takes_of_reader h.isLocal hread)

/-- What is taken for something where so many containers may be open is read as that by itself. -/
theorem reader_of_takes_inner {inner : Nat} (hinner : nestingLimit = inner + 1)
    (h : Takes (value? inner) cs y) : reader (String.ofList cs) = some y :=
  reader_of_takes (h.mono (value?_mono (by omega)))

end Whole

/-- **The reader reads standard text.** -/
theorem readsStandard_reader : ReadsStandard reader where
  padded hbefore hx hbehind := by
    have hlocal := hereditary_isLocal.written hx nestingLimit
    have hskip := value?_append hbefore nestingLimit
    have hpadded := hlocal.padded hskip hbehind
    refine Option.ext fun y => ⟨fun h => reader_of_takes ?_, fun h => reader_of_takes ?_⟩
    · exact (hlocal.takes_padded_iff hskip hbehind).mp (takes_of_reader hpadded h)
    · exact (hlocal.takes_padded_iff hskip hbehind).mpr (takes_of_reader hlocal h)
  null h := (reads_null nestingLimit).of_reader h
  bool h := (reads_bool nestingLimit _).of_reader h
  string h := (reads_string nestingLimit _).of_reader h
  number _ h := Numeral.spells_or_float_of_exchanged? ((reads_number nestingLimit _).of_reader h)
  emptyArray hgap h := ((reads_emptyArray nestingLimit hgap).of_reader h).2
  array hne htexts h := by
    have hlocal := fun depth cs hcs => isLocal_of_isPadded (htexts cs hcs) depth
    obtain ⟨inner, hinner, ys, htakes, rfl⟩ :=
      (reads_array nestingLimit hne htexts hlocal).of_reader h
    exact ⟨ys, rfl, htakes.imp fun _ _ => reader_of_takes_inner hinner⟩
  emptyObject hgap h := ((reads_emptyObject nestingLimit hgap).of_reader h).2
  object hne hentries h := by
    have hlocal := fun depth e he => isLocal_of_isPadded (hentries e he).text depth
    obtain ⟨inner, hinner, ns, htakes, rfl⟩ :=
      (reads_object nestingLimit hne hentries hlocal).of_reader h
    refine ⟨ns, rfl, htakes.imp ?_⟩
    rintro e n ⟨hpaired, hkey, hvalue⟩
    exact ⟨hpaired, hkey, reader_of_takes_inner hinner hvalue⟩

end Outer

end JsonAxes
