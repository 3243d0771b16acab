import JsonAxes.Path.Surface
import JsonAxes.Proofs.Text.Runs

/-!
# Readers and what they take

A reader takes a piece off the front of a text, whatever the offset of the text, as long as what
stands behind the piece does not carry it on (`Surface.Takes`). Here are the pieces that are read
character by character: names, quoted names, digits, white space. The readers of tests, of lists
of predicates and of lists of steps are opened once for each way they can go.
-/

set_option autoImplicit false

namespace JsonAxes

namespace Surface

/-! ## Characters -/

theorem eq_false_of_any {p : Char → Bool} {cs : List Char} (h : cs.any p = false) :
    ∀ c ∈ cs, p c = false :=
  fun c hc => eq_false_of_ne_true (List.any_eq_false.mp h c hc)

theorem ne_of_isNameChar {c d : Char} (hc : Path.isNameChar c = true)
    (hd : Path.isNameChar d = false) : c ≠ d := by
  rintro rfl
  rw [hc] at hd
  cases hd

/-- The marks of the grammar stand in no plain name. -/
theorem isNameChar_mark : ∀ c ∈ ['*', '(', '"', '\'', '@', ':', '.', '/', '['],
    Path.isNameChar c = false :=
  eq_false_of_any (by decide)

theorem isWhitespace_mark : ∀ c ∈ ['.', '/', ']'], Text.isWhitespace c = false :=
  eq_false_of_any (by decide)

theorem isWhitespace_of_isDigit {c : Char} (h : c.isDigit = true) :
    Text.isWhitespace c = false := by
  have hall : ∀ n ≤ 57, 48 ≤ n → Text.isWhitespace (Char.ofNat n) = false := by decide
  rw [Char.isDigit, Bool.and_eq_true, decide_eq_true_iff, decide_eq_true_iff] at h
  have hc := hall c.toNat h.2 h.1
  rwa [Char.ofNat_toNat] at hc

/-! ## Taking characters -/

theorem advance_append (offset : Nat) (front rest : List Char) :
    (⟨offset, front ++ rest⟩ : Rest).advance front.length
      = ⟨offset + Text.utf8Length front, rest⟩ := by
  rw [Rest.advance, List.take_left, List.drop_left]

theorem expect?_append (offset : Nat) (piece rest : List Char) :
    (⟨offset, piece ++ rest⟩ : Rest).expect? piece
      = some ⟨offset + Text.utf8Length piece, rest⟩ := by
  rw [Rest.expect?, if_pos (List.isPrefixOf_iff_prefix.mpr (List.prefix_append piece rest)),
    advance_append]

theorem expect?_cons (offset : Nat) (c : Char) (rest : List Char) :
    (⟨offset, c :: rest⟩ : Rest).expect? [c] = some ⟨offset + c.utf8Size, rest⟩ :=
  expect?_append offset [c] rest

theorem expect?_eq_none {r : Rest} {c : Char} {cs : List Char} (h : r.chars.head? ≠ some c) :
    r.expect? (c :: cs) = none := by
  apply if_neg
  intro hfront
  obtain ⟨rest, hrest⟩ := List.isPrefixOf_iff_prefix.mp hfront
  apply h
  rw [← hrest]
  rfl

/-- A mark that stands once is not taken for the mark that is doubled. -/
theorem expect?_double_eq_none {c : Char} {rest : List Char} (h : rest.head? ≠ some c)
    (offset : Nat) : (⟨offset, [c] ++ rest⟩ : Rest).expect? [c, c] = none := by
  apply if_neg
  intro hfront
  obtain ⟨tail, htail⟩ := List.isPrefixOf_iff_prefix.mp hfront
  have hrest : c :: tail = rest := List.tail_eq_of_cons_eq htail
  apply h
  rw [← hrest]
  rfl

theorem skipBlanks_eq {cs : List Char} (h : ∀ c ∈ cs.head?, Text.isWhitespace c = false)
    (offset : Nat) : (⟨offset, cs⟩ : Rest).skipBlanks = ⟨offset, cs⟩ := by
  have hnone : cs.takeWhile Text.isWhitespace = [] := Text.takeWhile_eq_nil h
  rw [Rest.skipBlanks, Rest.skipWhile, hnone]
  rfl

/-- Whether a reader takes some characters off the front of a text, no more and no fewer and
whatever their offset, and gives what is asked for. -/
def Takes {α : Type} (read : Rest → Option (α × Rest)) (front rest : List Char) (P : α → Prop) :
    Prop :=
  ∀ offset, ∃ a, read ⟨offset, front ++ rest⟩
    = some (a, ⟨offset + Text.utf8Length front, rest⟩) ∧ P a

variable {rest : List Char}

/-! ## Names and tests -/

theorem takes_plainName {name : List Char} (hne : name ≠ [])
    (hname : ∀ c ∈ name, Path.isNameChar c = true)
    (hrest : ∀ c ∈ rest.head?, Path.isNameChar c = false) :
    Takes plainName? name rest (· = String.ofList name) := by
  intro offset
  refine ⟨_, ?_, rfl⟩
  have hempty : ¬ name.isEmpty = true := by rwa [List.isEmpty_iff]
  simp only [plainName?, Text.takeWhile_append hname hrest, if_neg hempty, advance_append]

theorem plainName?_eq_none {r : Rest} (h : ∀ c ∈ r.chars.head?, Path.isNameChar c = false) :
    plainName? r = none := by
  have hnone : r.chars.takeWhile Path.isNameChar = [] := Text.takeWhile_eq_nil h
  simp only [plainName?, hnone, List.isEmpty_nil, if_true]

theorem takes_quotedName {quote : Char} {name : List Char} (h : quote ∉ name) :
    Takes (quotedName? quote) (quote :: (name ++ [quote])) rest (· = String.ofList name) := by
  intro offset
  have hinside : (name ++ (quote :: rest)).takeWhile (· != quote) = name := by
    refine Text.takeWhile_append (fun c hc => ?_) ?_
    · rw [bne_iff_ne]
      rintro rfl
      exact h hc
    · rintro c ⟨⟩
      exact bne_self_eq_false quote
  have hquoted : quote :: (name ++ [quote]) ++ rest = [quote] ++ (name ++ ([quote] ++ rest)) := by
    simp
  refine ⟨String.ofList name, ?_, rfl⟩
  rw [hquoted, quotedName?, expect?_append]
  simp only [Option.bind_eq_bind, Option.bind_some, List.singleton_append, hinside, advance_append,
    expect?_cons, Option.pure_def, Text.utf8Length_cons, Text.utf8Length_append,
    Text.utf8Length_nil, Nat.add_assoc, Nat.add_zero]

theorem plainName?_quote (offset : Nat) {quote : Char} (h : quote = '"' ∨ quote = '\'')
    (cs : List Char) : plainName? ⟨offset, quote :: cs⟩ = none := by
  refine plainName?_eq_none ?_
  rintro c ⟨⟩
  rcases h with rfl | rfl
  · exact isNameChar_mark _ (by decide)
  · exact isNameChar_mark _ (by decide)

theorem head?_append_ne {name : List Char} (hne : name ≠ [])
    (hname : ∀ c ∈ name, Path.isNameChar c = true) (rest : List Char) {d : Char}
    (hd : Path.isNameChar d = false) :
    (name ++ rest).head? ≠ some d := by
  obtain ⟨c, cs, rfl⟩ := List.exists_cons_of_ne_nil hne
  intro h
  exact ne_of_isNameChar (hname c List.mem_cons_self) hd (Option.some.inj h)

theorem test?_of_star {r after : Rest} (h : r.expect? ['*'] = some after) :
    test? r = some (.wildcard, after) := by
  simp only [test?, h]

theorem test?_of_plainName {r after : Rest} {name : String}
    (h : plainName? r = some (name, after)) (hstar : r.chars.head? ≠ some '*')
    (hcall : after.chars.head? ≠ some '(') : test? r = some (.name name, after) := by
  simp only [test?, expect?_eq_none hstar, h, expect?_eq_none hcall]

theorem test?_of_call {r after last : Rest} {name : String}
    (h : plainName? r = some (name, after)) (hstar : r.chars.head? ≠ some '*')
    (hcall : after.expect? ['(', ')'] = some last) : test? r = some (.function name, last) := by
  simp only [test?, expect?_eq_none hstar, h, hcall]

theorem test?_of_doubleQuoted {r after : Rest} {name : String} (hplain : plainName? r = none)
    (hstar : r.chars.head? ≠ some '*') (h : quotedName? '"' r = some (name, after)) :
    test? r = some (.name name, after) := by
  simp only [test?, expect?_eq_none hstar, hplain, h]

theorem test?_of_singleQuoted {r after : Rest} {name : String} (hplain : plainName? r = none)
    (hstar : r.chars.head? ≠ some '*') (hdouble : r.chars.head? ≠ some '"')
    (h : quotedName? '\'' r = some (name, after)) : test? r = some (.name name, after) := by
  have hnone : quotedName? '"' r = none := by
    rw [quotedName?, expect?_eq_none hdouble]
    rfl
  simp only [test?, expect?_eq_none hstar, hplain, hnone, h, Option.map_some]

/-! ## Predicates and steps -/

theorem predicates_of_none {r : Rest} (h : predicate? r = none) : predicates r = ([], r) := by
  rw [predicates.eq_def]
  split
  · rfl
  · next hsome =>
    rw [h] at hsome
    cases hsome

theorem predicates_of_some {r after : Rest} {p : Nat × Span} (h : predicate? r = some (p, after)) :
    predicates r = (p :: (predicates after).1, (predicates after).2) := by
  rw [predicates.eq_def]
  split
  · next hnone =>
    rw [h] at hnone
    cases hnone
  · next hsome =>
    rw [h] at hsome
    cases hsome
    rfl

theorem predicate?_eq_none {r : Rest} (h : r.chars.head? ≠ some '[') : predicate? r = none := by
  rw [predicate?, expect?_eq_none h]
  rfl

theorem separator?_eq_none {cs : List Char} (hslash : cs.head? ≠ some '/')
    (hblank : ∀ c ∈ cs.head?, Text.isWhitespace c = false) (offset : Nat) :
    separator? ⟨offset, cs⟩ = none := by
  have hnone : ∀ more, (⟨offset, cs⟩ : Rest).expect? ('/' :: more) = none :=
    fun _ => expect?_eq_none hslash
  simp only [separator?, skipBlanks_eq hblank, hnone, Option.map_none]

theorem moreSteps_of_none {r : Rest} (h : separator? r = none) : moreSteps r = ([], r) := by
  rw [moreSteps.eq_def]
  split
  · rfl
  · next hsome =>
    rw [h] at hsome
    cases hsome

theorem moreSteps_of_some {r front after : Rest} {s : Separator} {step : Step}
    (h : separator? r = some (s, front)) (h' : step? front = some (step, after)) :
    moreSteps r = ((s, step) :: (moreSteps after).1, (moreSteps after).2) := by
  rw [moreSteps.eq_def]
  split
  · next hnone =>
    rw [h] at hnone
    cases hnone
  · next hsome =>
    rw [h] at hsome
    cases hsome
    split
    · next hnone =>
      rw [h'] at hnone
      cases hnone
    · next hsome =>
      rw [h'] at hsome
      cases hsome
      rfl

theorem path?_of_step {r front after : Rest} {lead : Option Separator} {first : Step}
    (hlead : leading r.skipBlanks = (lead, front)) (hfirst : step? front = some (first, after)) :
    path? r = some (⟨lead, (lead.getD .child, first) :: (moreSteps after).1⟩,
      (moreSteps after).2) := by
  simp only [path?, hlead, hfirst]

theorem path?_of_bare {r front : Rest} {lead : Option Separator}
    (hlead : leading r.skipBlanks = (lead, front)) (hnone : step? front = none)
    (hdeep : lead ≠ some .deep) : path? r = some (⟨lead, []⟩, front) := by
  simp only [path?, hlead, hnone, if_neg hdeep]

theorem ofText?_of_path? {cs behind : List Char} {surface : Surface} {offset : Nat}
    (h : path? ⟨0, cs⟩ = some (surface, ⟨offset, behind⟩))
    (hbehind : ∀ c ∈ behind, Text.isWhitespace c = true) :
    ofText? (String.ofList cs) = some surface := by
  have hall : behind.takeWhile Text.isWhitespace = behind := by
    have hnil : ∀ c ∈ ([] : List Char).head?, Text.isWhitespace c = false := nofun
    have htake := Text.takeWhile_append hbehind hnil
    rwa [List.append_nil] at htake
  have hempty : (⟨offset, behind⟩ : Rest).skipBlanks.chars.isEmpty = true := by
    simp only [Rest.skipBlanks, Rest.skipWhile, Rest.advance, hall, List.drop_length,
      List.isEmpty_nil]
  rw [ofText?, Rest.ofText, String.toList_ofList, read?, h]
  exact if_pos hempty

end Surface

end JsonAxes
