import JsonAxes.Proofs.Text.Objection
import JsonAxes.Value.Reader

/-!
# Escapes as 16-bit units

The body of a string literal spells a sequence of 16-bit units (`Text.SpellsUnits`): a character as
it is and an escape by letter spell the units of a character, an escape by number spells its unit.
Decoded in one pass, with U+FFFD for every surrogate that is not one of a pair
(`Text.decodeLossy`), the sequence is what the literal resolves to (`Reader.stringOf_lossy`).

The reader pairs escapes by looking ahead, and a pair is two neighbouring units all the same: the
units of a character come alone or as a pair of their own, so the unit behind a lone high surrogate
is a low one only if it is spelled by an escape. The induction is over the pieces of the literal,
two of them at once where they are a pair.
-/

set_option autoImplicit false

namespace JsonAxes.Text

/-! ## Units of a literal -/

/-- The letters of escapes and the characters they stand for. -/
def letterEscapes : List (Char × Char) :=
  [('"', '"'), ('\\', '\\'), ('/', '/'), ('b', '\x08'), ('f', '\x0c'), ('n', '\n'), ('r', '\r'),
    ('t', '\t')]

/-- The units that the body of a string literal spells, piece by piece. -/
inductive SpellsUnits : List Char → List Nat → Prop where
  | nil : SpellsUnits [] []
  | plain {c : Char} {cs : List Char} {us : List Nat} (hc : c ≠ '\\') (h : SpellsUnits cs us) :
      SpellsUnits (c :: cs) (units c ++ us)
  | letter {e d : Char} {cs : List Char} {us : List Nat} (he : (e, d) ∈ letterEscapes)
      (h : SpellsUnits cs us) : SpellsUnits ('\\' :: e :: cs) (units d ++ us)
  | unit {a b c d : Char} {cs : List Char} {us : List Nat} (ha : isHexDigit a = true)
      (hb : isHexDigit b = true) (hc : isHexDigit c = true) (hd : isHexDigit d = true)
      (h : SpellsUnits cs us) :
      SpellsUnits ('\\' :: 'u' :: a :: b :: c :: d :: cs) (hexNumber [a, b, c, d] :: us)

theorem simpleEscape?_of_mem : ∀ p ∈ letterEscapes, p.1 ≠ 'u' ∧ simpleEscape? p.1 = some p.2 :=
  List.forall_iff_forall_mem.mp (by decide)

theorem mem_letterEscapes : ∀ e ∈ ['"', '\\', '/', 'b', 'f', 'n', 'r', 't'],
    ∃ d, (e, d) ∈ letterEscapes := by
  intro e he
  simp only [List.mem_cons, List.not_mem_nil, or_false] at he
  rcases he with rfl | rfl | rfl | rfl | rfl | rfl | rfl | rfl <;> simp [letterEscapes]

theorem SpellsUnits.wellEscaped {cs : List Char} {us : List Nat} (h : SpellsUnits cs us) :
    WellEscaped cs := by
  induction h with
  | nil => exact .nil
  | plain hc _ ih => exact .plain hc ih
  | letter he _ ih =>
      obtain ⟨-, hd⟩ := simpleEscape?_of_mem _ he
      exact .letter ((exists_simpleEscape?_iff _).mp ⟨_, hd⟩) ih
  | unit ha hb hc hd _ ih => exact .unit ha hb hc hd ih

theorem WellEscaped.exists_spellsUnits {cs : List Char} (h : WellEscaped cs) :
    ∃ us, SpellsUnits cs us := by
  induction h with
  | nil => exact ⟨[], .nil⟩
  | plain hc _ ih =>
      obtain ⟨us, hus⟩ := ih
      exact ⟨_, .plain hc hus⟩
  | letter he _ ih =>
      obtain ⟨us, hus⟩ := ih
      obtain ⟨d, hd⟩ := mem_letterEscapes _ he
      exact ⟨_, .letter hd hus⟩
  | unit ha hb hc hd _ ih =>
      obtain ⟨us, hus⟩ := ih
      exact ⟨_, .unit ha hb hc hd hus⟩

theorem SpellsUnits.unique {cs : List Char} {us vs : List Nat} (h : SpellsUnits cs us)
    (h' : SpellsUnits cs vs) : us = vs := by
  induction h generalizing vs with
  | nil =>
      cases h'
      rfl
  | plain hc _ ih =>
      cases h' with
      | plain _ h' => rw [ih h']
      | letter | unit => exact absurd rfl hc
  | letter he _ ih =>
      obtain ⟨hne, hd⟩ := simpleEscape?_of_mem _ he
      cases h' with
      | plain hc _ => exact absurd rfl hc
      | letter he' h' =>
          obtain ⟨-, hd'⟩ := simpleEscape?_of_mem _ he'
          rw [hd] at hd'
          cases hd'
          rw [ih h']
      | unit => exact absurd rfl hne
  | unit _ _ _ _ _ ih =>
      cases h' with
      | plain hc _ => exact absurd rfl hc
      | letter he' _ => exact absurd rfl (simpleEscape?_of_mem _ he').1
      | unit _ _ _ _ h' => rw [ih h']

/-- The literals that spell units are those in which every backslash begins an escape. -/
theorem wellEscaped_iff_spellsUnits (cs : List Char) :
    WellEscaped cs ↔ ∃! us, SpellsUnits cs us := by
  constructor
  · intro h
    obtain ⟨us, hus⟩ := h.exists_spellsUnits
    exact ⟨us, hus, fun _ h' => h'.unique hus⟩
  · rintro ⟨us, hus, -⟩
    exact hus.wellEscaped

/-! ## Decoding units -/

/-- The character of a unit that is not one of a pair. -/
def loneChar (unit : Nat) : Char :=
  if isHighSurrogate unit || isLowSurrogate unit then replacement else Char.ofNat unit

/-- Decodes 16-bit units in one pass, with U+FFFD for every surrogate that is not one of a pair. -/
def decodeLossy : List Nat → List Char
  | [] => []
  | [unit] => [loneChar unit]
  | unit :: next :: rest =>
    if isHighSurrogate unit && isLowSurrogate next then
      Char.ofNat (pairCode unit next) :: decodeLossy rest
    else loneChar unit :: decodeLossy (next :: rest)

theorem decodeLossy_pair {high low : Nat} (hhigh : isHighSurrogate high = true)
    (hlow : isLowSurrogate low = true) (us : List Nat) :
    decodeLossy (high :: low :: us) = Char.ofNat (pairCode high low) :: decodeLossy us := by
  rw [decodeLossy, hhigh, hlow]
  rfl

/-- A unit is decoded by itself unless it begins a pair. -/
theorem decodeLossy_cons {unit : Nat} {us : List Nat}
    (h : isHighSurrogate unit = true → ∀ low ∈ us.head?, isLowSurrogate low = false) :
    decodeLossy (unit :: us) = loneChar unit :: decodeLossy us := by
  cases us with
  | nil => rfl
  | cons next rest =>
      rw [decodeLossy, if_neg]
      rw [Bool.and_eq_true]
      rintro ⟨hhigh, hlow⟩
      rw [h hhigh next rfl] at hlow
      cases hlow

/-- The units of a character are decoded as that character, whatever comes behind them. -/
theorem decodeLossy_units_append (c : Char) (us : List Nat) :
    decodeLossy (units c ++ us) = c :: decodeLossy us := by
  by_cases h : c.toNat < 0x10000
  · have hunits : units c = [c.toNat] := if_pos h
    have hchar : loneChar c.toNat = c := by
      rw [loneChar, isHighSurrogate_toNat, isLowSurrogate_toNat]
      exact Char.ofNat_toNat c
    have hlone : isHighSurrogate c.toNat = true →
        ∀ low ∈ us.head?, isLowSurrogate low = false := by
      intro hhigh
      rw [isHighSurrogate_toNat] at hhigh
      cases hhigh
    rw [hunits, List.singleton_append, decodeLossy_cons hlone, hchar]
  · obtain ⟨high, low, hunits, hhigh, hlow, hcode⟩ := exists_pair_of_le (Nat.not_lt.mp h)
    rw [hunits, List.cons_append, List.singleton_append, decodeLossy_pair hhigh hlow, hcode,
      Char.ofNat_toNat]

/-- No character begins with a low surrogate. -/
theorem isLowSurrogate_of_mem_head?_units (c : Char) (us : List Nat) :
    ∀ unit ∈ (units c ++ us).head?, isLowSurrogate unit = false := by
  by_cases h : c.toNat < 0x10000
  · have hunits : units c = [c.toNat] := if_pos h
    rw [hunits]
    rintro unit ⟨⟩
    exact isLowSurrogate_toNat c
  · obtain ⟨high, low, hunits, hhigh, -, -⟩ := exists_pair_of_le (Nat.not_lt.mp h)
    rw [hunits]
    rintro unit ⟨⟩
    exact isLowSurrogate_of_isHighSurrogate hhigh

/-! ## Characters of units -/

theorem charOfCode?_eq_ofNat {code : Nat} (h : code.isValidChar) :
    charOfCode? code = some (Char.ofNat code) := by
  rw [charOfCode?, dif_pos h, Char.ofNat, dif_pos h]

/-- A unit that is not one of a pair is read as its character. -/
theorem getD_charOfCode? {unit : Nat} (h : unit < 0x10000) :
    (charOfCode? unit).getD replacement = loneChar unit := by
  by_cases hvalid : unit.isValidChar
  · have hnot : (isHighSurrogate unit || isLowSurrogate unit) = false := by
      rw [← Bool.not_eq_true, Bool.or_eq_true, isHighSurrogate_iff, isLowSurrogate_iff]
      rw [Nat.isValidChar] at hvalid
      omega
    rw [charOfCode?_eq_ofNat hvalid, loneChar, hnot]
    rfl
  · have hsurrogate : (isHighSurrogate unit || isLowSurrogate unit) = true := by
      rw [Bool.or_eq_true, isHighSurrogate_iff, isLowSurrogate_iff]
      rw [Nat.isValidChar] at hvalid
      omega
    rw [charOfCode?, dif_neg hvalid, loneChar, hsurrogate]
    rfl

/-- What an escape by number resolves to if no second half of a pair stands behind it. -/
theorem unitChar_lone {unit : Nat} (hunit : unit < 0x10000) {rest : List Char}
    (h : isHighSurrogate unit = true → lowEscape? rest = none) :
    unitChar unit rest = (loneChar unit, unitEscapeLength, rest) := by
  rw [← getD_charOfCode? hunit, unitChar]
  split
  · next hhigh =>
    rw [h hhigh, charOfCode?_of_isHighSurrogate hhigh]
    rfl
  · rfl

/-- What it resolves to otherwise. -/
theorem unitChar_of_lowEscape? {high low : Nat} {rest after : List Char}
    (hhigh : isHighSurrogate high = true) (hlow : isLowSurrogate low = true)
    (h : lowEscape? rest = some (low, after)) :
    unitChar high rest = (Char.ofNat (pairCode high low), 2 * unitEscapeLength, after) := by
  rw [unitChar, if_pos hhigh, h]
  show ((charOfCode? (pairCode high low)).getD replacement, 2 * unitEscapeLength, after) = _
  rw [charOfCode?_eq_ofNat (isValidChar_pairCode hhigh hlow), Option.getD_some]

/-! ## Pairs of escapes -/

theorem hexUnit?_digits {a b c d : Char} (ha : isHexDigit a = true) (hb : isHexDigit b = true)
    (hc : isHexDigit c = true) (hd : isHexDigit d = true) (rest : List Char) :
    hexUnit? (a :: b :: c :: d :: rest) = some (hexNumber [a, b, c, d], rest) := by
  rw [hexUnit?, ha, hb, hc, hd]
  rfl

theorem lowEscape?_digits {a b c d : Char} (ha : isHexDigit a = true) (hb : isHexDigit b = true)
    (hc : isHexDigit c = true) (hd : isHexDigit d = true) (rest : List Char) :
    lowEscape? ('\\' :: 'u' :: a :: b :: c :: d :: rest)
      = if isLowSurrogate (hexNumber [a, b, c, d]) then some (hexNumber [a, b, c, d], rest)
        else none := by
  rw [lowEscape?, hexUnit?_digits ha hb hc hd]
  exact Option.filter_some

/-- What looking ahead for the second half of a pair sees of a literal with something behind it: an
escape that spells the first unit, if this is a low surrogate, and nothing otherwise. -/
inductive LooksAhead (bad : List Char) : List Char → List Nat → Prop where
  | low {a b c d : Char} {cs : List Char} {us : List Nat} (ha : isHexDigit a = true)
      (hb : isHexDigit b = true) (hc : isHexDigit c = true) (hd : isHexDigit d = true)
      (hlow : isLowSurrogate (hexNumber [a, b, c, d]) = true) (h : SpellsUnits cs us) :
      LooksAhead bad ('\\' :: 'u' :: a :: b :: c :: d :: cs) (hexNumber [a, b, c, d] :: us)
  | none {cs : List Char} {us : List Nat} (h : lowEscape? (cs ++ bad) = none)
      (hus : ∀ unit ∈ us.head?, isLowSurrogate unit = false) : LooksAhead bad cs us

theorem SpellsUnits.looksAhead {cs : List Char} {us : List Nat} (h : SpellsUnits cs us)
    {bad : List Char} (hbad : lowEscape? bad = none) : LooksAhead bad cs us := by
  cases h with
  | nil => exact .none hbad nofun
  | @plain c cs us hc _ =>
      refine .none (Canonical.lowEscape?_of_ne ?_) (isLowSurrogate_of_mem_head?_units c us)
      rintro rest heq
      exact hc (List.cons.inj heq).1
  | @letter e d cs us he _ =>
      refine .none (Canonical.lowEscape?_of_ne ?_) (isLowSurrogate_of_mem_head?_units d us)
      rintro rest heq
      exact (simpleEscape?_of_mem _ he).1 (List.cons.inj (List.cons.inj heq).2).1
  | @unit a b c d cs us ha hb hc hd h =>
      by_cases hlow : isLowSurrogate (hexNumber [a, b, c, d]) = true
      · exact .low ha hb hc hd hlow h
      · refine .none ?_ (by rintro unit ⟨⟩; exact Bool.not_eq_true _ ▸ hlow)
        exact (lowEscape?_digits ha hb hc hd (cs ++ bad)).trans (if_neg hlow)

/-! ## What literals resolve to -/

theorem utf8Size_of_isHexDigit {c : Char} (h : isHexDigit c = true) : c.utf8Size = 1 :=
  Canonical.utf8Size_of_isCanonical (Canonical.isCanonical_of_isHexDigit h).1

theorem utf8Length_unit {a b c d : Char} (ha : isHexDigit a = true) (hb : isHexDigit b = true)
    (hc : isHexDigit c = true) (hd : isHexDigit d = true) (cs : List Char) :
    utf8Length ('\\' :: 'u' :: a :: b :: c :: d :: cs) = unitEscapeLength + utf8Length cs := by
  have hslash : Char.utf8Size '\\' = 1 := rfl
  have hletter : Char.utf8Size 'u' = 1 := rfl
  simp only [utf8Length_cons, hslash, hletter, utf8Size_of_isHexDigit ha, utf8Size_of_isHexDigit hb,
    utf8Size_of_isHexDigit hc, utf8Size_of_isHexDigit hd, unitEscapeLength]
  omega

theorem utf8Length_letter {p : Char × Char} (hp : p ∈ letterEscapes) (cs : List Char) :
    utf8Length ('\\' :: p.1 :: cs) = 2 + utf8Length cs := by
  have hsize : ∀ p ∈ letterEscapes, Char.utf8Size p.1 = 1 :=
    List.forall_iff_forall_mem.mp (by decide)
  have hslash : Char.utf8Size '\\' = 1 := rfl
  rw [utf8Length_cons, utf8Length_cons, hsize p hp, hslash, ← Nat.add_assoc]

theorem map_map_cons {x : Except ReadError (List Char)} (c : Char) (cs : List Char) :
    (x.map (cs ++ ·)).map (c :: ·) = x.map (c :: cs ++ ·) := by
  cases x <;> rfl

/-- The escapes of a literal resolve to its units decoded, whatever comes behind it that is not the
second half of a pair. -/
theorem SpellsUnits.unescape_append {cs : List Char} {us : List Nat} (h : SpellsUnits cs us)
    {bad : List Char} (hbad : lowEscape? bad = none) (offset : Nat) :
    unescape offset (cs ++ bad)
      = (unescape (offset + utf8Length cs) bad).map (decodeLossy us ++ ·) := by
  obtain ⟨n, hn⟩ : ∃ n, n = cs.length := ⟨_, rfl⟩
  induction n using Nat.strongRecOn generalizing cs us offset with
  | ind n ih =>
    subst hn
    cases h with
    | nil =>
        rw [List.nil_append, utf8Length_nil, Nat.add_zero]
        cases unescape offset bad <;> rfl
    | @plain c cs us hc h =>
        have hrest := ih cs.length (by simp) h (offset + c.utf8Size) rfl
        rw [List.cons_append, unescape_cons_of_ne hc, hrest, map_map_cons,
          decodeLossy_units_append, utf8Length_cons, Nat.add_assoc]
    | @letter e d cs us he h =>
        obtain ⟨hne, hd⟩ := simpleEscape?_of_mem _ he
        have hrest := ih cs.length (by simp only [List.length_cons]; omega) h (offset + 2) rfl
        have hlength : utf8Length ('\\' :: e :: cs) = 2 + utf8Length cs := utf8Length_letter he cs
        rw [List.cons_append, List.cons_append, unescape_simple hne hd, hrest, map_map_cons,
          decodeLossy_units_append, hlength, Nat.add_assoc]
    | @unit a b c d cs us ha hb hc hd h =>
        have hdigits := hexUnit?_digits ha hb hc hd (cs ++ bad)
        have hunit := hexNumber_lt ha hb hc hd
        have hlength := utf8Length_unit ha hb hc hd cs
        generalize hexNumber [a, b, c, d] = unit at hdigits hunit
        -- where there is no pair, the escape resolves by itself
        have hlone (hnone : isHighSurrogate unit = true → lowEscape? (cs ++ bad) = none)
            (hus : isHighSurrogate unit = true →
              ∀ low ∈ us.head?, isLowSurrogate low = false) :
            unescape offset ('\\' :: 'u' :: a :: b :: c :: d :: cs ++ bad)
              = (unescape (offset + utf8Length ('\\' :: 'u' :: a :: b :: c :: d :: cs)) bad).map
                  (decodeLossy (unit :: us) ++ ·) := by
          have hrest := ih cs.length (by simp only [List.length_cons]; omega) h
            (offset + unitEscapeLength) rfl
          rw [hlength, ← Nat.add_assoc, decodeLossy_cons hus]
          calc unescape offset ('\\' :: 'u' :: a :: b :: c :: d :: (cs ++ bad))
              = (unescape (offset + unitEscapeLength) (cs ++ bad)).map (loneChar unit :: ·) :=
                unescape_unit hdigits (unitChar_lone hunit hnone) offset
            _ = _ := by rw [hrest, map_map_cons]
        by_cases hhigh : isHighSurrogate unit = true
        · cases h.looksAhead hbad with
          | none hnone hus => exact hlone (fun _ => hnone) fun _ => hus
          | @low a' b' c' d' cs us ha' hb' hc' hd' hlow h' =>
              have hahead := (lowEscape?_digits ha' hb' hc' hd' (cs ++ bad)).trans (if_pos hlow)
              have hrest := ih cs.length (by simp only [List.length_cons]; omega) h'
                (offset + 2 * unitEscapeLength) rfl
              have hoffset : offset + 2 * unitEscapeLength + utf8Length cs
                  = offset + (unitEscapeLength + (unitEscapeLength + utf8Length cs)) := by omega
              rw [hoffset] at hrest
              rw [hlength, utf8Length_unit ha' hb' hc' hd', decodeLossy_pair hhigh hlow]
              calc unescape offset ('\\' :: 'u' :: a :: b :: c :: d ::
                    ('\\' :: 'u' :: a' :: b' :: c' :: d' :: (cs ++ bad)))
                  = (unescape (offset + 2 * unitEscapeLength) (cs ++ bad)).map
                      (Char.ofNat (pairCode unit (hexNumber [a', b', c', d'])) :: ·) :=
                    unescape_unit hdigits (unitChar_of_lowEscape? hhigh hlow hahead) offset
                _ = _ := by rw [hrest, map_map_cons]
        · exact hlone (fun h => absurd h hhigh) fun h => absurd h hhigh

/-! ## Backslashes that begin no escape -/

/-- Escapes by letter and by number. -/
inductive IsEscape : List Char → Prop where
  | letter {e : Char} (he : e ∈ ['"', '\\', '/', 'b', 'f', 'n', 'r', 't']) : IsEscape ['\\', e]
  | unit {a b c d : Char} (ha : isHexDigit a = true) (hb : isHexDigit b = true)
      (hc : isHexDigit c = true) (hd : isHexDigit d = true) : IsEscape ['\\', 'u', a, b, c, d]

/-- Whether a text begins with a backslash and no escape. -/
structure IsStray (cs : List Char) : Prop where
  head : cs.head? = some '\\'
  not_prefix : ∀ escape, IsEscape escape → ¬ escape <+: cs

/-- The error of a text at an offset that begins with a backslash and no escape: nothing stands
behind the backslash, or as much is shown as the escape would have. -/
def strayError (offset : Nat) (cs : List Char) : ReadError :=
  match cs.tail.head? with
  | none => .unterminatedEscape ⟨offset, offset + 1⟩
  | some e => malformed offset (if e = 'u' then unitEscapeLength else 2) cs

theorem IsEscape.wellEscaped_append {escape cs : List Char} (hescape : IsEscape escape)
    (h : WellEscaped cs) : WellEscaped (escape ++ cs) := by
  cases hescape with
  | letter he => exact .letter he h
  | unit ha hb hc hd => exact .unit ha hb hc hd h

theorem IsEscape.length_pos {escape : List Char} (h : IsEscape escape) : 0 < escape.length := by
  cases h <;> exact Nat.succ_pos _

/-- Behind a stray backslash there is nothing, a `u` without four digits, or no letter. -/
theorem IsStray.cases {cs : List Char} (h : IsStray cs) :
    cs = ['\\'] ∨ (∃ rest, cs = '\\' :: 'u' :: rest ∧ hexUnit? rest = none)
      ∨ ∃ e rest, cs = '\\' :: e :: rest ∧ e ≠ 'u' ∧ simpleEscape? e = none := by
  obtain ⟨more, rfl⟩ := List.head?_eq_some_iff.mp h.head
  cases more with
  | nil => exact .inl rfl
  | cons e rest =>
      by_cases he : e = 'u'
      · subst he
        refine .inr (.inl ⟨rest, rfl, Option.eq_none_iff_forall_not_mem.mpr ?_⟩)
        rintro ⟨unit, after⟩ hunit
        obtain ⟨a, b, c, d, rfl, ha, hb, hc, hd⟩ := exists_digits_of_hexUnit? hunit
        exact h.not_prefix _ (.unit ha hb hc hd) ⟨after, rfl⟩
      · refine .inr (.inr ⟨e, rest, rfl, he, Option.eq_none_iff_forall_not_mem.mpr ?_⟩)
        intro d hd
        exact h.not_prefix _ (.letter ((exists_simpleEscape?_iff e).mp ⟨d, hd⟩)) ⟨rest, rfl⟩

/-- A stray backslash is an error, and no second half of a pair. -/
theorem IsStray.unescape_eq {cs : List Char} (h : IsStray cs) (offset : Nat) :
    unescape offset cs = .error (strayError offset cs) ∧ lowEscape? cs = none := by
  rcases h.cases with rfl | ⟨rest, rfl, hrest⟩ | ⟨e, rest, rfl, he, hnone⟩
  · exact ⟨by rw [unescape, if_pos rfl]; rfl, rfl⟩
  · constructor
    · rw [unescape, if_pos rfl]
      simp only [if_true]
      split
      · rfl
      · next hunit =>
        rw [hrest] at hunit
        cases hunit
    · rw [lowEscape?, hrest]
      rfl
  · constructor
    · have herror : strayError offset ('\\' :: e :: rest)
          = malformed offset 2 ('\\' :: e :: rest) :=
        congrArg (malformed offset · _) (if_neg he)
      rw [unescape, if_pos rfl, if_neg he, hnone, herror]
    · apply Canonical.lowEscape?_of_ne
      rintro more heq
      exact he (List.cons.inj (List.cons.inj heq).2).1

/-- In a text not all of whose backslashes begin escapes there is a first one that begins none. -/
theorem exists_stray {cs : List Char} (h : ¬ WellEscaped cs) :
    ∃ front bad, cs = front ++ bad ∧ WellEscaped front ∧ IsStray bad := by
  obtain ⟨n, hn⟩ : ∃ n, n = cs.length := ⟨_, rfl⟩
  induction n using Nat.strongRecOn generalizing cs with
  | ind n ih =>
    subst hn
    cases cs with
    | nil => exact absurd .nil h
    | cons c rest =>
        by_cases hc : c = '\\'
        · by_cases hescape : ∃ escape, IsEscape escape ∧ escape <+: c :: rest
          · obtain ⟨escape, hescape, left, hleft⟩ := hescape
            have hlength : left.length < (c :: rest).length := by
              have := hescape.length_pos
              rw [← hleft, List.length_append]
              omega
            have hnot : ¬ WellEscaped left := fun hwell =>
              h (hleft ▸ hescape.wellEscaped_append hwell)
            obtain ⟨front, bad, rfl, hfront, hbad⟩ := ih left.length hlength hnot rfl
            exact ⟨escape ++ front, bad, by rw [← hleft, List.append_assoc],
              hescape.wellEscaped_append hfront, hbad⟩
          · refine ⟨[], c :: rest, rfl, .nil, ⟨congrArg some hc, fun escape hesc hbegins => ?_⟩⟩
            exact hescape ⟨escape, hesc, hbegins⟩
        · have hnot : ¬ WellEscaped rest := fun hwell => h (.plain hc hwell)
          obtain ⟨front, bad, rfl, hfront, hbad⟩ := ih rest.length (by simp) hnot rfl
          exact ⟨c :: front, bad, rfl, .plain hc hfront, hbad⟩

/-- An error of resolving a text is about the first backslash in it that begins no escape. -/
theorem exists_stray_of_unescape_eq_error {offset : Nat} {cs : List Char} {e : ReadError}
    (h : unescape offset cs = .error e) :
    ∃ front bad, cs = front ++ bad ∧ WellEscaped front ∧ IsStray bad
      ∧ e = strayError (offset + utf8Length front) bad := by
  have hnot : ¬ WellEscaped cs := by
    intro hwell
    obtain ⟨s, hs⟩ := (exists_unescape_iff offset cs).mpr hwell
    rw [hs] at h
    cases h
  obtain ⟨front, bad, rfl, hfront, hbad⟩ := exists_stray hnot
  obtain ⟨us, hus⟩ := hfront.exists_spellsUnits
  obtain ⟨herror, hahead⟩ := hbad.unescape_eq (offset + utf8Length front)
  rw [hus.unescape_append hahead, herror] at h
  cases h
  exact ⟨front, bad, rfl, hfront, hbad, rfl⟩

end JsonAxes.Text

namespace JsonAxes.Reader

open Text

/-- **Escapes resolve as 16-bit units decode.** The body of a string literal in which every
backslash begins an escape, whatever else is in it, spells one sequence of units, and the literal is
read as this sequence decoded with U+FFFD for every surrogate that is not one of a pair. In any
other body there is a first backslash that begins no escape, and the error is about that one. -/
theorem stringOf_lossy (t : Token) :
    (∀ us, SpellsUnits t.text.toList us → stringOf t = .ok (String.ofList (decodeLossy us)))
    ∧ (WellEscaped t.text.toList ↔ ∃! us, SpellsUnits t.text.toList us)
    ∧ (∀ front bad, t.text.toList = front ++ bad → WellEscaped front → IsStray bad →
      stringOf t = .error (strayError (t.span.lo + 1 + utf8Length front) bad))
    ∧ (¬ WellEscaped t.text.toList →
      ∃ front bad, t.text.toList = front ++ bad ∧ WellEscaped front ∧ IsStray bad) := by
  refine ⟨fun us hus => ?_, wellEscaped_iff_spellsUnits _, fun front bad hsplit hfront hbad => ?_,
    exists_stray⟩
  · have hnil : lowEscape? [] = none := rfl
    have hunescape := hus.unescape_append hnil (t.span.lo + 1)
    rw [List.append_nil, unescape_nil] at hunescape
    rw [stringOf, hunescape]
    show Except.ok (String.ofList (decodeLossy us ++ [])) = _
    rw [List.append_nil]
  · obtain ⟨us, hus⟩ := hfront.exists_spellsUnits
    obtain ⟨herror, hahead⟩ := hbad.unescape_eq (t.span.lo + 1 + utf8Length front)
    rw [stringOf, hsplit, hus.unescape_append hahead, herror]
    rfl

/-- A high surrogate in front of a pair, and another one in front of a letter and a character that
takes a pair by itself; and this text with an escape behind it that lacks a digit. -/
theorem stringOf_lossy_mixed :
    let high := ['\\', 'u', 'd', '8', '3', 'd']
    let low := ['\\', 'u', 'd', 'e', '0', '0']
    let front := 'é' :: (high ++ (high ++ (low ++ (high ++ ['\\', 'n', '😀']))))
    let bad := ['\\', 'u', 'd', '8', 'é', '!', '!']
    let us := [0xe9, 0xd83d, 0xd83d, 0xde00, 0xd83d, 0xa, 0xd83d, 0xde00]
    (SpellsUnits front us ∧ WellEscaped front ∧ IsStray bad)
    ∧ stringOf ⟨.string, String.ofList front, ⟨4, 40⟩⟩
      = .ok (String.ofList ['é', replacement, '😀', replacement, '\n', '😀'])
    ∧ stringOf ⟨.string, String.ofList (front ++ bad), ⟨4, 40⟩⟩
      = .error (.malformedEscape "\\ud8é" ⟨37, 43⟩) := by
  intro high low front bad us
  have hunits : units 'é' ++ 0xd83d :: 0xd83d :: 0xde00 :: 0xd83d ::
      (units '\n' ++ (units '😀' ++ [])) = us := by decide
  have hus : SpellsUnits front us := hunits ▸
    .plain (by decide) (.unit rfl rfl rfl rfl (.unit rfl rfl rfl rfl (.unit rfl rfl rfl rfl
      (.unit rfl rfl rfl rfl (.letter (e := 'n') (by decide) (.plain (by decide) .nil))))))
  have hbad : IsStray bad := by
    refine ⟨rfl, fun escape hescape hbegins => ?_⟩
    cases hescape with
    | letter he =>
        simp only [bad, List.cons_prefix_cons] at hbegins
        rw [hbegins.2.1] at he
        exact absurd he (by decide)
    | unit ha hb hc hd =>
        simp only [bad, List.cons_prefix_cons] at hbegins
        rw [hbegins.2.2.2.2.1] at hc
        exact absurd hc (by decide)
  refine ⟨⟨hus, hus.wellEscaped, hbad⟩, ?_, ?_⟩
  · have h := (stringOf_lossy ⟨.string, String.ofList front, ⟨4, 40⟩⟩).1 us
    rw [String.toList_ofList] at h
    have hdecoded : decodeLossy us = ['é', replacement, '😀', replacement, '\n', '😀'] := by
      decide
    rw [h hus, hdecoded]
  · have h := (stringOf_lossy ⟨.string, String.ofList (front ++ bad), ⟨4, 40⟩⟩).2.2.1 front bad
    rw [String.toList_ofList] at h
    have herror : strayError (4 + 1 + utf8Length front) bad
        = .malformedEscape "\\ud8é" ⟨37, 43⟩ := by decide
    rw [h rfl hus.wellEscaped hbad, ← herror]

end JsonAxes.Reader
