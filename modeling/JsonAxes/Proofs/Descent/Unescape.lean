import JsonAxes.Descent.Unescape
import JsonAxes.Proofs.Text.Lossy

/-!
# Escapes by offsets are escapes

Resolving the escapes of a text by offsets does nothing that is not allowed, if the base of the text
leaves room for its length below 2^64, and comes to what resolving them character by character comes
to (`Descent.unescape_eq`).

The induction is over what is left of the text, with the text in front of it: every offset that is
used is the length of a front of the text (`Text.slice?_append`), that of the end of what an error
shows because it is rounded up to one.
-/

set_option autoImplicit false

namespace JsonAxes

namespace Text

/-! ## Pieces between offsets -/

theorem utf8Length_eq_zero_iff {cs : List Char} : utf8Length cs = 0 ↔ cs = [] := by
  cases cs with
  | nil => exact iff_of_true rfl rfl
  | cons c cs =>
      have hpos := c.utf8Size_pos
      rw [utf8Length_cons]
      exact iff_of_false (by omega) (List.cons_ne_nil c cs)

/-- A text is cut where a front of it ends. -/
theorem cut?_eq_some_iff {n : Nat} {cs a b : List Char} :
    cut? n cs = some (a, b) ↔ cs = a ++ b ∧ utf8Length a = n := by
  fun_induction cut? n cs generalizing a with
  | case1 cs =>
      rw [utf8Length_eq_zero_iff, Option.some_inj, Prod.mk.injEq]
      constructor
      · rintro ⟨rfl, rfl⟩
        exact ⟨rfl, rfl⟩
      · rintro ⟨rfl, rfl⟩
        exact ⟨rfl, rfl⟩
  | case2 n =>
      refine iff_of_false nofun ?_
      rintro ⟨hnil, hlength⟩
      obtain ⟨rfl, -⟩ := List.append_eq_nil_iff.mp hnil.symm
      cases hlength
  | case3 n c cs hle ih =>
      rw [Option.map_eq_some_iff]
      constructor
      · rintro ⟨⟨a', b'⟩, hcut, heq⟩
        cases heq
        obtain ⟨rfl, hlength⟩ := ih.mp hcut
        refine ⟨rfl, ?_⟩
        rw [utf8Length_cons, hlength]
        omega
      · rintro ⟨heq, hlength⟩
        cases a with
        | nil => cases hlength
        | cons c' a =>
            obtain ⟨rfl, rfl⟩ := List.cons.inj heq
            rw [utf8Length_cons] at hlength
            exact ⟨(a, b), ih.mpr ⟨rfl, by omega⟩, rfl⟩
  | case4 n c cs hnot =>
      refine iff_of_false nofun ?_
      rintro ⟨heq, hlength⟩
      cases a with
      | nil => cases hlength
      | cons c' a =>
          obtain ⟨rfl, rfl⟩ := List.cons.inj heq
          rw [utf8Length_cons] at hlength
          omega

theorem cut?_append (a b : List Char) : cut? (utf8Length a) (a ++ b) = some (a, b) :=
  cut?_eq_some_iff.mpr ⟨rfl, rfl⟩

theorem isBoundary_iff {cs : List Char} {n : Nat} :
    isBoundary cs n = true ↔ ∃ a, a <+: cs ∧ utf8Length a = n := by
  rw [isBoundary, Option.isSome_iff_exists]
  constructor
  · rintro ⟨⟨a, b⟩, hcut⟩
    obtain ⟨rfl, hlength⟩ := cut?_eq_some_iff.mp hcut
    exact ⟨a, List.prefix_append a b, hlength⟩
  · rintro ⟨a, ⟨b, rfl⟩, rfl⟩
    exact ⟨_, cut?_append a b⟩

/-- No character begins behind the end. -/
theorem le_of_isBoundary {cs : List Char} {n : Nat} (h : isBoundary cs n = true) :
    n ≤ utf8Length cs := by
  obtain ⟨a, ⟨b, rfl⟩, rfl⟩ := isBoundary_iff.mp h
  rw [utf8Length_append]
  exact Nat.le_add_right _ _

/-- A text has the pieces that stand in it between whole characters, and no others. -/
theorem slice?_eq_some_iff {cs piece : List Char} {lo hi : Nat} :
    slice? cs lo hi = some piece
      ↔ ∃ a b, cs = a ++ (piece ++ b) ∧ utf8Length a = lo ∧ lo + utf8Length piece = hi := by
  constructor
  · intro h
    unfold slice? at h
    split at h
    · next hle =>
      obtain ⟨⟨a, behind⟩, hfront, hpiece⟩ := Option.bind_eq_some_iff.mp h
      obtain ⟨⟨p, b⟩, hcut, rfl⟩ := Option.map_eq_some_iff.mp hpiece
      obtain ⟨rfl, ha⟩ := cut?_eq_some_iff.mp hfront
      obtain ⟨rfl, hp⟩ := cut?_eq_some_iff.mp hcut
      refine ⟨a, b, rfl, ha, ?_⟩
      show lo + utf8Length p = hi
      omega
    · cases h
  · rintro ⟨a, b, rfl, rfl, rfl⟩
    rw [slice?, if_pos (Nat.le_add_right _ _), cut?_append, Option.bind_some,
      Nat.add_sub_cancel_left, cut?_append, Option.map_some]

theorem slice?_append (a piece b : List Char) :
    slice? (a ++ (piece ++ b)) (utf8Length a) (utf8Length a + utf8Length piece) = some piece :=
  slice?_eq_some_iff.mpr ⟨a, b, rfl, rfl, rfl⟩

/-! ## What errors show -/

theorem takeBytes_isPrefix (n : Nat) (cs : List Char) : takeBytes n cs <+: cs := by
  fun_induction takeBytes n cs with
  | case1 cs => exact List.nil_prefix
  | case2 n => exact List.nil_prefix
  | case3 n c cs ih => exact List.cons_prefix_cons.mpr ⟨rfl, ih⟩

/-- What is shown has as many bytes as asked for, or is all there is. -/
theorem min_le_utf8Length_takeBytes (n : Nat) (cs : List Char) :
    min n (utf8Length cs) ≤ utf8Length (takeBytes n cs) := by
  fun_induction takeBytes n cs with
  | case1 cs => exact Nat.min_le_left _ _
  | case2 n => exact Nat.min_le_right _ _
  | case3 n c cs ih =>
      rw [utf8Length_cons, utf8Length_cons]
      omega

/-- Nothing shorter would do. -/
theorem takeBytes_isPrefix_of_le {n : Nat} {cs p : List Char} (hp : p <+: cs)
    (hle : min n (utf8Length cs) ≤ utf8Length p) : takeBytes n cs <+: p := by
  fun_induction takeBytes n cs generalizing p with
  | case1 cs => exact List.nil_prefix
  | case2 n => exact List.nil_prefix
  | case3 n c cs ih =>
      rw [utf8Length_cons] at hle
      cases p with
      | nil =>
          have hpos := c.utf8Size_pos
          rw [utf8Length_nil] at hle
          omega
      | cons d p =>
          obtain ⟨rfl, hrest⟩ := List.cons_prefix_cons.mp hp
          rw [utf8Length_cons] at hle
          exact List.cons_prefix_cons.mpr ⟨rfl, ih hrest (by omega)⟩

theorem utf8Length_le_of_isPrefix {a b : List Char} (h : a <+: b) :
    utf8Length a ≤ utf8Length b := by
  obtain ⟨rest, rfl⟩ := h
  rw [utf8Length_append]
  exact Nat.le_add_right _ _

/-- Of two fronts of a text, the one with fewer bytes is a front of the other. -/
theorem isPrefix_of_utf8Length_le {a b cs : List Char} (ha : a <+: cs) (hb : b <+: cs)
    (h : utf8Length a ≤ utf8Length b) : a <+: b := by
  rcases List.prefix_or_prefix_of_prefix ha hb with hab | ⟨rest, rfl⟩
  · exact hab
  · rw [utf8Length_append] at h
    have hnil : rest = [] := utf8Length_eq_zero_iff.mp (by omega)
    exact ⟨[], by rw [hnil, List.append_nil, List.append_nil]⟩

end Text

namespace Descent

open Text Outcome

/-! ## Operations by offsets -/

theorem slice_of_slice? {cs piece : List Char} {lo hi : Nat} (h : slice? cs lo hi = some piece) :
    slice cs lo hi = pure piece := by
  rw [slice, h]

/-- What may be cut out of a text is what stands in it between whole characters. -/
theorem faultless_slice_iff {cs : List Char} {lo hi : Nat} :
    Faultless (slice cs lo hi)
      ↔ ∃ a piece b, cs = a ++ (piece ++ b) ∧ utf8Length a = lo ∧ lo + utf8Length piece = hi := by
  cases h : slice? cs lo hi with
  | some piece =>
      obtain ⟨a, b, hpiece⟩ := slice?_eq_some_iff.mp h
      rw [slice_of_slice? h]
      exact iff_of_true (faultless_pure piece) ⟨a, piece, b, hpiece⟩
  | none =>
      rw [slice, h]
      refine iff_of_false (not_faultless_fault _) ?_
      rintro ⟨a, piece, b, hpiece⟩
      rw [slice?_eq_some_iff.mpr ⟨a, b, hpiece⟩] at h
      cases h

/-- The offset behind a piece is where rounding up from any offset behind its last but one
character comes to. -/
theorem roundUp_eq {cs : List Char} {m n : Nat} (hle : m ≤ n) (hn : isBoundary cs n = true)
    (hbetween : ∀ j, m ≤ j → j < n → isBoundary cs j = false) : roundUp cs m = pure n := by
  obtain ⟨k, rfl⟩ := Nat.exists_eq_add_of_le hle
  induction k generalizing m with
  | zero =>
      rw [Nat.add_zero] at hn ⊢
      rw [roundUp, if_pos hn]
  | succ k ih =>
      have hm := hbetween m (Nat.le_refl m) (by omega)
      have hlt : m < utf8Length cs := by
        have hend := le_of_isBoundary hn
        omega
      have hshift : m + 1 + k = m + (k + 1) := by omega
      rw [roundUp, hm, if_neg Bool.false_ne_true, if_pos hlt, ← hshift]
      exact ih (by omega) (hshift ▸ hn) fun j hj hlt => hbetween j (by omega) (by omega)

theorem spanWithin_eq {base lo hi : Nat} (hle : lo ≤ hi) (hlt : base + hi < UInt64.size) :
    spanWithin base lo hi = pure ⟨base + lo, base + hi⟩ := by
  rw [spanWithin, add_of_lt (by omega), pure_bind, add_of_lt hlt, pure_bind,
    span_of_le (by omega)]

/-- What an error shows ends where rounding up comes to. -/
theorem roundUp_takeBytes (front cs : List Char) (bytes : Nat) :
    roundUp (front ++ cs) (min (utf8Length front + bytes) (utf8Length (front ++ cs)))
      = pure (utf8Length front + utf8Length (takeBytes bytes cs)) := by
  have htaken := takeBytes_isPrefix bytes cs
  have hmin := min_le_utf8Length_takeBytes bytes cs
  rw [utf8Length_append]
  refine roundUp_eq (by omega) ?_ fun j hj hlt => ?_
  · refine isBoundary_iff.mpr ⟨front ++ takeBytes bytes cs, ?_, utf8Length_append _ _⟩
    exact (List.prefix_append_right_inj front).mpr htaken
  · rw [← Bool.not_eq_true, isBoundary_iff]
    rintro ⟨a, ha, rfl⟩
    have hle : utf8Length front ≤ utf8Length a := by omega
    obtain ⟨p, rfl⟩ := isPrefix_of_utf8Length_le (List.prefix_append front cs) ha hle
    rw [utf8Length_append] at hj hlt
    have hp : p <+: cs := (List.prefix_append_right_inj front).mp ha
    have hlonger := utf8Length_le_of_isPrefix (takeBytes_isPrefix_of_le (n := bytes) hp (by omega))
    omega

theorem malformedAt_eq {base : Nat} {front cs : List Char}
    (hlt : base + utf8Length (front ++ cs) < UInt64.size) (bytes : Nat) :
    malformedAt (front ++ cs) base (utf8Length front) bytes
      = pure (malformed (base + utf8Length front) bytes cs) := by
  obtain ⟨rest, hrest⟩ := takeBytes_isPrefix bytes cs
  have hslice : slice (front ++ cs) (utf8Length front)
      (utf8Length front + utf8Length (takeBytes bytes cs)) = pure (takeBytes bytes cs) := by
    have h := slice?_append front (takeBytes bytes cs) rest
    rw [hrest] at h
    exact slice_of_slice? h
  have hle := utf8Length_le_of_isPrefix (takeBytes_isPrefix bytes cs)
  rw [utf8Length_append] at hlt
  rw [malformedAt, roundUp_takeBytes, pure_bind, hslice, pure_bind,
    spanWithin_eq (Nat.le_add_right _ _) (by omega), pure_bind, malformed, Nat.add_assoc]

/-! ## Digits and pairs -/

theorem slice?_front (front cs : List Char) (n : Nat) :
    slice? (front ++ cs) (utf8Length front) (utf8Length front + n) = (cut? n cs).map Prod.fst := by
  rw [slice?, if_pos (Nat.le_add_right _ _), cut?_append, Option.bind_some, Nat.add_sub_cancel_left]

theorem utf8Length_digits {a b c d : Char} (ha : isHexDigit a = true) (hb : isHexDigit b = true)
    (hc : isHexDigit c = true) (hd : isHexDigit d = true) : utf8Length [a, b, c, d] = 4 := by
  simp only [utf8Length_cons, utf8Length_nil, utf8Size_of_isHexDigit ha, utf8Size_of_isHexDigit hb,
    utf8Size_of_isHexDigit hc, utf8Size_of_isHexDigit hd]

/-- The four bytes at the front of a text are digits if its first four characters are. -/
theorem hexAt?_eq {raw front cs : List Char} {offset : Nat} (hraw : raw = front ++ cs)
    (hoffset : utf8Length front = offset) : hexAt? raw offset = (hexUnit? cs).map Prod.fst := by
  subst hraw hoffset
  rw [hexAt?, slice?_front]
  cases hunit : hexUnit? cs with
  | some p =>
      obtain ⟨unit, after⟩ := p
      obtain ⟨a, b, c, d, rfl, ha, hb, hc, hd⟩ := exists_digits_of_hexUnit? hunit
      rw [hexUnit?_digits ha hb hc hd] at hunit
      cases hunit
      have hcut : cut? 4 (a :: b :: c :: d :: after) = some ([a, b, c, d], after) :=
        cut?_eq_some_iff.mpr ⟨rfl, utf8Length_digits ha hb hc hd⟩
      rw [hcut, Option.map_some, Option.filter_some_pos (by simp [ha, hb, hc, hd]),
        Option.map_some, Option.map_some]
  | none =>
      rw [Option.map_none, Option.map_eq_none_iff, Option.eq_none_iff_forall_not_mem]
      intro digits hdigits
      obtain ⟨hpiece, hall⟩ := Option.filter_eq_some_iff.mp hdigits
      obtain ⟨⟨p, b⟩, hcut, rfl⟩ := Option.map_eq_some_iff.mp hpiece
      obtain ⟨rfl, hlength⟩ := cut?_eq_some_iff.mp hcut
      rw [List.all_eq_true] at hall
      rw [Canonical.utf8Length_of_isCanonical fun c hc =>
        (Canonical.isCanonical_of_isHexDigit (hall c hc)).1] at hlength
      obtain ⟨w, x, y, z, rfl⟩ := List.length_eq_four.mp hlength
      simp only [List.forall_mem_cons] at hall
      obtain ⟨hw, hx, hy, hz, -⟩ := hall
      have hsome := hexUnit?_digits hw hx hy hz b
      rw [List.cons_append, List.cons_append, List.cons_append, List.cons_append, List.nil_append,
        hsome] at hunit
      cases hunit

theorem lowBehind?_eq {raw front cs : List Char} {offset : Nat} (hraw : raw = front ++ cs)
    (hoffset : utf8Length front = offset + 6) (unit : Nat) :
    lowBehind? raw offset unit
      = pure (if isHighSurrogate unit then (lowEscape? cs).map Prod.fst else none) := by
  rw [lowBehind?]
  split
  · have hslice : slice raw (offset + 6) (utf8Length raw) = pure cs := by
      have h := slice?_append front cs []
      rw [List.append_nil, ← utf8Length_append, ← hraw, hoffset] at h
      exact slice_of_slice? h
    rw [hslice, pure_bind]
    by_cases hslash : ∃ more, cs = '\\' :: 'u' :: more
    · obtain ⟨more, rfl⟩ := hslash
      have hdigits : hexAt? raw (offset + 8) = (hexUnit? more).map Prod.fst := by
        have hfront : raw = (front ++ ['\\', 'u']) ++ more := by rw [hraw, List.append_assoc]; rfl
        exact hexAt?_eq hfront (by rw [utf8Length_append, hoffset]; rfl)
      have hmark : ['\\', 'u'].isPrefixOf ('\\' :: 'u' :: more) = true := rfl
      rw [hmark, if_pos rfl, hdigits, lowEscape?, Option.filter_map]
      rfl
    · have hmark : ['\\', 'u'].isPrefixOf cs = false := by
        rw [← Bool.not_eq_true, List.isPrefixOf_iff_prefix]
        rintro ⟨more, rfl⟩
        exact hslash ⟨more, rfl⟩
      have hnone : lowEscape? cs = none :=
        Canonical.lowEscape?_of_ne fun more heq => hslash ⟨more, heq⟩
      rw [hmark, hnone]
      rfl
  · rfl

theorem codeOfPair_eq {high low : Nat} (hhigh : isHighSurrogate high = true)
    (hlow : isLowSurrogate low = true) : codeOfPair high low = pure (pairCode high low) := by
  rw [isHighSurrogate_iff] at hhigh
  rw [isLowSurrogate_iff] at hlow
  rw [codeOfPair, sub_of_le hhigh.1, pure_bind, sub_of_le hlow.1, pure_bind]
  rfl

theorem skip_append (piece left : List Char) (offset : Nat) :
    skip piece.length offset (piece ++ left) = (offset + utf8Length piece, left) := by
  rw [skip, List.take_left, List.drop_left]

/-- The second half of a pair is an escape by number. -/
theorem exists_digits_of_lowEscape? {cs after : List Char} {low : Nat}
    (h : lowEscape? cs = some (low, after)) :
    isLowSurrogate low = true ∧ ∃ a b c d, cs = '\\' :: 'u' :: a :: b :: c :: d :: after
      ∧ isHexDigit a = true ∧ isHexDigit b = true ∧ isHexDigit c = true ∧ isHexDigit d = true := by
  unfold lowEscape? at h
  split at h
  · obtain ⟨hunit, hlow⟩ := Option.filter_eq_some_iff.mp h
    obtain ⟨a, b, c, d, rfl, hdigits⟩ := exists_digits_of_hexUnit? hunit
    exact ⟨hlow, a, b, c, d, rfl, hdigits⟩
  · cases h

/-- An escape by number is the first half of a pair or stands by itself. -/
theorem unitChar_cases {unit taken : Nat} {after left : List Char} {d : Char}
    (h : unitChar unit after = (d, taken, left)) :
    (∃ low, isHighSurrogate unit = true ∧ lowEscape? after = some (low, left)
      ∧ d = (charOfCode? (pairCode unit low)).getD replacement ∧ taken = 2 * unitEscapeLength)
    ∨ (isHighSurrogate unit = true → lowEscape? after = none) ∧ left = after
      ∧ d = (charOfCode? unit).getD replacement ∧ taken = unitEscapeLength := by
  unfold unitChar at h
  split at h
  · next hhigh =>
    split at h
    · next low after' hlow =>
      obtain ⟨hd, hrest⟩ := Prod.mk.inj h
      obtain ⟨htaken, rfl⟩ := Prod.mk.inj hrest
      exact .inl ⟨low, hhigh, hlow, hd.symm, htaken.symm⟩
    · next hnone =>
      obtain ⟨hd, hrest⟩ := Prod.mk.inj h
      obtain ⟨htaken, rfl⟩ := Prod.mk.inj hrest
      refine .inr ⟨fun _ => hnone, rfl, ?_, htaken.symm⟩
      rw [charOfCode?_of_isHighSurrogate hhigh, Option.getD_none, hd]
  · next hhigh =>
    obtain ⟨hd, hrest⟩ := Prod.mk.inj h
    obtain ⟨htaken, rfl⟩ := Prod.mk.inj hrest
    exact .inr ⟨fun h => absurd h hhigh, rfl, hd.symm, htaken.symm⟩

/-! ## Whole texts -/

/-- Resolving goes on behind what was taken. -/
def Proceeds (raw : List Char) (base offset : Nat) (rest : List Char) (d : Char) (after : Nat)
    (left : List Char) : Prop :=
  unescapeFrom raw base offset rest
    = unescapeFrom raw base after left >>= fun more => pure (d :: more)

/-- Behind an escape by number resolving goes on where its character ends. -/
theorem proceeds_unit {raw front digits after left : List Char} {offset unit taken : Nat} {d : Char}
    (hraw : raw = front ++ '\\' :: 'u' :: digits) (hoffset : utf8Length front = offset)
    (hunit : hexUnit? digits = some (unit, after)) (hchar : unitChar unit after = (d, taken, left))
    (base : Nat) :
    Proceeds raw base offset ('\\' :: 'u' :: digits) d (offset + taken) left
      ∧ ∃ piece, utf8Length piece = taken ∧ '\\' :: 'u' :: digits = piece ++ left := by
  obtain ⟨x, y, z, w, rfl, hx, hy, hz, hw⟩ := exists_digits_of_hexUnit? hunit
  have hdigits : hexAt? raw (offset + 2) = some unit := by
    have hfront : raw = (front ++ ['\\', 'u']) ++ x :: y :: z :: w :: after := by
      rw [hraw, List.append_assoc]
      rfl
    rw [hexAt?_eq hfront (by rw [utf8Length_append, hoffset]; rfl), hunit, Option.map_some]
  have hpiece : utf8Length ['\\', 'u', x, y, z, w] = 6 := utf8Length_unit hx hy hz hw []
  have hfront : raw = (front ++ ['\\', 'u', x, y, z, w]) ++ after := by
    rw [hraw, List.append_assoc]
    rfl
  have hbehind := lowBehind?_eq hfront (by rw [utf8Length_append, hoffset, hpiece]) unit
  have hskip : skip 4 (offset + 2) (x :: y :: z :: w :: after) = (offset + 6, after) := by
    have hfour : skip 4 (offset + 2) ([x, y, z, w] ++ after)
        = (offset + 2 + utf8Length [x, y, z, w], after) := skip_append [x, y, z, w] after _
    rw [utf8Length_digits hx hy hz hw] at hfour
    exact hfour
  rw [Proceeds, unescapeFrom, if_pos rfl]
  simp only [if_true, hdigits, hbehind, pure_bind, hskip]
  rcases unitChar_cases hchar with ⟨low, hhigh, hlow, hd, rfl⟩ | ⟨hnone, rfl, hd, rfl⟩
  · obtain ⟨hlow', a, b, c, e, rfl, ha, hb, hc, he⟩ := exists_digits_of_lowEscape? hlow
    have hpiece' : utf8Length ['\\', 'u', a, b, c, e] = 6 := utf8Length_unit ha hb hc he []
    have hskip' : skip 6 (offset + 6) ('\\' :: 'u' :: a :: b :: c :: e :: left)
        = (offset + 2 * unitEscapeLength, left) := by
      have hsix : skip 6 (offset + 6) (['\\', 'u', a, b, c, e] ++ left)
          = (offset + 6 + utf8Length ['\\', 'u', a, b, c, e], left) :=
        skip_append ['\\', 'u', a, b, c, e] left _
      rw [hpiece'] at hsix
      exact hsix
    constructor
    · rw [if_pos hhigh, hlow, hd, Option.map_some]
      simp only [codeOfPair_eq hhigh hlow', pure_bind]
      rw [hskip']
    · refine ⟨['\\', 'u', x, y, z, w] ++ ['\\', 'u', a, b, c, e], ?_, rfl⟩
      rw [utf8Length_append, hpiece, hpiece']
      rfl
  · constructor
    · have hlow :
          (if isHighSurrogate unit then (lowEscape? left).map Prod.fst else none) = none := by
        split
        · next hhigh => rw [hnone hhigh, Option.map_none]
        · rfl
      rw [hlow, hd]
      rfl
    · exact ⟨['\\', 'u', x, y, z, w], hpiece, rfl⟩

/-- From any offset at which a character begins, resolving by offsets comes to what resolving the
rest of the text comes to. -/
theorem unescapeFrom_eq {raw front rest : List Char} {base offset : Nat}
    (hraw : raw = front ++ rest) (hoffset : utf8Length front = offset)
    (hlt : base + utf8Length raw < UInt64.size) :
    unescapeFrom raw base offset rest = ofRead (Text.unescape (base + offset) rest) := by
  obtain ⟨o, ho⟩ : ∃ o, o = base + offset := ⟨_, rfl⟩
  rw [← ho]
  fun_induction Text.unescape o rest generalizing front offset with
  | case1 =>
      rw [unescapeFrom]
      rfl
  | case2 o =>
      have hlength : utf8Length raw = offset + 1 := by
        rw [hraw, utf8Length_append, hoffset]
        rfl
      rw [unescapeFrom, if_pos rfl]
      show (spanWithin base offset (utf8Length raw) >>= fun place =>
        refuse (.unterminatedEscape place)) = _
      rw [hlength] at hlt ⊢
      rw [spanWithin_eq (by omega) hlt, pure_bind, ho]
      rfl
  | case3 o rest hu =>
      have hdigits : hexAt? raw (offset + 2) = (hexUnit? rest).map Prod.fst := by
        have hfront : raw = (front ++ ['\\', 'u']) ++ rest := by rw [hraw, List.append_assoc]; rfl
        exact hexAt?_eq hfront (by rw [utf8Length_append, hoffset]; rfl)
      have hmalformed : malformedAt raw base offset 6
          = pure (malformed o 6 ('\\' :: 'u' :: rest)) := by
        rw [ho, ← hoffset, hraw]
        exact malformedAt_eq (hraw ▸ hlt) 6
      rw [unescapeFrom, if_pos rfl]
      simp only [if_true, hdigits, hu, Option.map_none, hmalformed, pure_bind]
      rfl
  | case4 o rest unit after hu _ d taken left hc _ ih =>
      obtain ⟨hproceeds, piece, hpiece, hsplit⟩ := proceeds_unit hraw hoffset hu hc base
      have hfront : raw = (front ++ piece) ++ left := by rw [hraw, hsplit, List.append_assoc]
      have hrest := ih hfront (by rw [utf8Length_append, hoffset, hpiece]) (by omega)
      rw [hproceeds, hrest, ofRead_map]
  | case5 o e rest hnot d hd ih =>
      have hfront : raw = (front ++ ['\\', e]) ++ rest := by
        rw [hraw, List.append_assoc]
        rfl
      have hpiece : utf8Length ['\\', e] = 2 := by
        obtain ⟨d', he⟩ := mem_letterEscapes e ((exists_simpleEscape?_iff e).mp ⟨d, hd⟩)
        exact utf8Length_letter he []
      have hrest := ih hfront (by rw [utf8Length_append, hoffset, hpiece]) (by omega)
      rw [unescapeFrom, if_pos rfl]
      simp only [if_neg hnot, hd, hrest, ofRead_map]
  | case6 o e rest hnot hnone =>
      have hmalformed : malformedAt raw base offset 2
          = pure (malformed o 2 ('\\' :: e :: rest)) := by
        rw [ho, ← hoffset, hraw]
        exact malformedAt_eq (hraw ▸ hlt) 2
      rw [unescapeFrom, if_pos rfl]
      simp only [if_neg hnot, hnone, hmalformed, pure_bind]
      rfl
  | case7 o c rest hc ih =>
      have hfront : raw = (front ++ [c]) ++ rest := by
        rw [hraw, List.append_assoc]
        rfl
      have hpiece : utf8Length [c] = c.utf8Size := rfl
      have hrest := ih hfront (by rw [utf8Length_append, hoffset, hpiece]) (by omega)
      rw [unescapeFrom.eq_def]
      simp only [if_neg hc, hrest, ofRead_map]

/-- Resolving the escapes of a token by offsets does nothing that is not allowed, if the span leaves
room for the text, and comes to what resolving them character by character comes to. -/
theorem unescape_eq {t : Token} (hlt : t.span.lo + 1 + utf8Length t.text.toList < UInt64.size) :
    unescape t = ofRead (Reader.stringOf t) := by
  rw [unescape, Reader.stringOf]
  split
  · have hfrom : unescapeFrom t.text.toList (t.span.lo + 1) 0 t.text.toList
        = ofRead (Text.unescape (t.span.lo + 1 + 0) t.text.toList) :=
      unescapeFrom_eq (List.nil_append _).symm utf8Length_nil hlt
    rw [add_of_lt (by omega), pure_bind, hfrom, ofRead_map]
  · next hslash =>
    rw [unescape_of_notMem hslash]
    show pure t.text = pure (String.ofList t.text.toList)
    rw [String.ofList_toList]

end Descent

end JsonAxes
