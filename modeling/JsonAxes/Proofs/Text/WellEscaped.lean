import JsonAxes.Proofs.Text.Unescape
import Mathlib.Tactic.ByContra

/-!
# Texts whose escapes are well formed

`Text.WellEscaped` is the grammar of the body of a string literal: characters as they are, escapes
by letter and escapes by number. These are the texts that resolve
(`Text.exists_unescape_iff`). Pairs of surrogates make no difference: an escape that is taken
along with the one in front of it is well formed by itself.
-/

set_option autoImplicit false

namespace JsonAxes.Text

/-- Texts in which every backslash begins an escape. -/
inductive WellEscaped : List Char → Prop where
  | nil : WellEscaped []
  | plain {c : Char} {cs : List Char} (hc : c ≠ '\\') (h : WellEscaped cs) : WellEscaped (c :: cs)
  | letter {e : Char} {cs : List Char} (he : e ∈ ['"', '\\', '/', 'b', 'f', 'n', 'r', 't'])
      (h : WellEscaped cs) : WellEscaped ('\\' :: e :: cs)
  | unit {a b c d : Char} {cs : List Char} (ha : isHexDigit a = true) (hb : isHexDigit b = true)
      (hc : isHexDigit c = true) (hd : isHexDigit d = true) (h : WellEscaped cs) :
      WellEscaped ('\\' :: 'u' :: a :: b :: c :: d :: cs)

/-! ## Escapes by letter -/

/-- The letters that stand for a character behind a backslash. -/
theorem exists_simpleEscape?_iff (e : Char) :
    (∃ d, simpleEscape? e = some d) ↔ e ∈ ['"', '\\', '/', 'b', 'f', 'n', 'r', 't'] := by
  simp only [simpleEscape?, List.mem_cons, List.not_mem_nil, or_false]
  constructor
  · rintro ⟨d, hd⟩
    by_contra hnone
    simp only [not_or] at hnone
    simp [hnone] at hd
  · rintro (rfl | rfl | rfl | rfl | rfl | rfl | rfl | rfl) <;> exact ⟨_, rfl⟩

theorem wellEscaped_cons_iff {c : Char} (hc : c ≠ '\\') {cs : List Char} :
    WellEscaped (c :: cs) ↔ WellEscaped cs := by
  refine ⟨fun h => ?_, .plain hc⟩
  cases h with
  | plain _ h => exact h
  | letter | unit => exact absurd rfl hc

theorem wellEscaped_letter_iff {e : Char} (he : e ≠ 'u') {cs : List Char} :
    WellEscaped ('\\' :: e :: cs)
      ↔ e ∈ ['"', '\\', '/', 'b', 'f', 'n', 'r', 't'] ∧ WellEscaped cs := by
  refine ⟨fun h => ?_, fun ⟨he, h⟩ => .letter he h⟩
  cases h with
  | plain hc _ => exact absurd rfl hc
  | letter he h => exact ⟨he, h⟩
  | unit => exact absurd rfl he

/-! ## Escapes by number -/

theorem exists_digits_of_hexUnit? {cs after : List Char} {unit : Nat}
    (h : hexUnit? cs = some (unit, after)) :
    ∃ a b c d, cs = a :: b :: c :: d :: after ∧ isHexDigit a = true ∧ isHexDigit b = true
      ∧ isHexDigit c = true ∧ isHexDigit d = true := by
  unfold hexUnit? at h
  split at h
  · next a b c d rest =>
    split at h
    · next hdigits =>
      simp only [Bool.and_eq_true] at hdigits
      cases h
      exact ⟨a, b, c, d, rfl, hdigits.1.1.1, hdigits.1.1.2, hdigits.1.2, hdigits.2⟩
    · cases h
  · cases h

theorem wellEscaped_of_hexUnit? {cs after : List Char} {unit : Nat}
    (h : hexUnit? cs = some (unit, after)) :
    WellEscaped ('\\' :: 'u' :: cs) ↔ WellEscaped after := by
  obtain ⟨a, b, c, d, rfl, ha, hb, hc, hd⟩ := exists_digits_of_hexUnit? h
  constructor
  · intro hw
    cases hw with
    | plain hc _ => exact absurd rfl hc
    | letter he _ => exact absurd he (by decide)
    | unit _ _ _ _ h => exact h
  · exact .unit ha hb hc hd

theorem exists_hexUnit?_of_wellEscaped {cs : List Char} (h : WellEscaped ('\\' :: 'u' :: cs)) :
    ∃ unit after, hexUnit? cs = some (unit, after) := by
  cases h with
  | plain hc _ => exact absurd rfl hc
  | letter he _ => exact absurd he (by decide)
  | unit ha hb hc hd _ => exact ⟨_, _, by rw [hexUnit?, ha, hb, hc, hd]; rfl⟩

/-- Whatever an escape by number takes along is well formed. -/
theorem wellEscaped_of_unitChar {after left : List Char} {unit taken : Nat} {d : Char}
    (h : unitChar unit after = (d, taken, left)) : WellEscaped after ↔ WellEscaped left := by
  have hleft : left = (unitChar unit after).2.2 := by rw [h]
  rw [hleft, unitChar]
  split
  · split
    · next low rest hlow =>
      unfold lowEscape? at hlow
      split at hlow
      · exact wellEscaped_of_hexUnit? (Option.filter_eq_some_iff.mp hlow).1
      · cases hlow
    · exact Iff.rfl
  · exact Iff.rfl

/-! ## All escapes -/

theorem map_eq_ok_iff {α β ε : Type} {x : Except ε α} {f : α → β} {b : β} :
    x.map f = .ok b ↔ ∃ a, x = .ok a ∧ f a = b := by
  cases x with
  | error e => exact ⟨nofun, nofun⟩
  | ok a =>
      constructor
      · intro h
        cases h
        exact ⟨a, rfl, rfl⟩
      · rintro ⟨_, ⟨⟩, rfl⟩
        rfl

theorem map_eq_error_iff {α β ε : Type} {x : Except ε α} {f : α → β} {e : ε} :
    x.map f = .error e ↔ x = .error e := by
  cases x with
  | error e' =>
      constructor
      · rintro ⟨⟩
        rfl
      · rintro ⟨⟩
        rfl
  | ok a => exact ⟨nofun, nofun⟩

theorem exists_map_eq_ok_iff {α β ε : Type} {x : Except ε α} {f : α → β} :
    (∃ b, x.map f = .ok b) ↔ ∃ a, x = .ok a := by
  constructor
  · rintro ⟨b, h⟩
    obtain ⟨a, ha, -⟩ := map_eq_ok_iff.mp h
    exact ⟨a, ha⟩
  · rintro ⟨a, ha⟩
    exact ⟨f a, map_eq_ok_iff.mpr ⟨a, ha, rfl⟩⟩

/-- A text resolves exactly if every backslash in it begins an escape. -/
theorem exists_unescape_iff (offset : Nat) (cs : List Char) :
    (∃ s, unescape offset cs = .ok s) ↔ WellEscaped cs := by
  fun_induction unescape offset cs with
  | case1 => exact ⟨fun _ => .nil, fun _ => ⟨[], rfl⟩⟩
  | case2 =>
      refine ⟨nofun, fun h => ?_⟩
      cases h with
      | plain hc _ => exact absurd rfl hc
  | case3 offset rest hu =>
      refine ⟨nofun, fun h => ?_⟩
      obtain ⟨unit, after, hsome⟩ := exists_hexUnit?_of_wellEscaped h
      rw [hu] at hsome
      cases hsome
  | case4 offset rest unit after hu _ d taken left hc _ ih =>
      rw [exists_map_eq_ok_iff, ih, wellEscaped_of_hexUnit? hu, wellEscaped_of_unitChar hc]
  | case5 offset e rest hnot d hd ih =>
      rw [exists_map_eq_ok_iff, ih, wellEscaped_letter_iff hnot, ← exists_simpleEscape?_iff]
      exact (and_iff_right ⟨d, hd⟩).symm
  | case6 offset e rest hnot hnone =>
      rw [wellEscaped_letter_iff hnot, ← exists_simpleEscape?_iff, hnone]
      exact ⟨nofun, nofun⟩
  | case7 offset c rest hc ih => rw [exists_map_eq_ok_iff, ih, wellEscaped_cons_iff hc]

/-- What a text resolves to does not depend on where it stands. -/
theorem unescape_of_unescape {offset : Nat} {cs out : List Char} (h : unescape offset cs = .ok out)
    (offset' : Nat) : unescape offset' cs = .ok out := by
  fun_induction unescape offset cs generalizing offset' out with
  | case1 =>
      rw [unescape_nil]
      exact h
  | case2 => cases h
  | case3 => cases h
  | case4 offset rest unit after hu _ d taken left hc _ ih =>
      obtain ⟨more, hmore, rfl⟩ := map_eq_ok_iff.mp h
      rw [unescape_unit hu hc]
      exact map_eq_ok_iff.mpr ⟨more, ih hmore _, rfl⟩
  | case5 offset e rest hnot d hd ih =>
      obtain ⟨more, hmore, rfl⟩ := map_eq_ok_iff.mp h
      rw [unescape_simple hnot hd]
      exact map_eq_ok_iff.mpr ⟨more, ih hmore _, rfl⟩
  | case6 => cases h
  | case7 offset c rest hc ih =>
      obtain ⟨more, hmore, rfl⟩ := map_eq_ok_iff.mp h
      rw [unescape_cons_of_ne hc]
      exact map_eq_ok_iff.mpr ⟨more, ih hmore _, rfl⟩

end JsonAxes.Text
