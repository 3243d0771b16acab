import JsonAxes.Proofs.Value.Ascii

/-!
# The characters of printed text

Control characters are never printed as they are, and line feeds only where the layout breaks lines;
a layout that escapes all but ASCII prints nothing else (`Layout.printsAll_valueText`). So printing
in such a layout gives canonical text, and the same as printing without the escapes and putting the
result into canonical form (`Canonical.ofText_print`).
-/

set_option autoImplicit false

namespace JsonAxes

namespace Layout

/-- Whether a character may stand in the text of a layout: it is no control character, and within
ASCII if all else is escaped, or it is the line feed of a line break. -/
def Prints (l : Layout) (c : Char) : Prop :=
  (' ' ≤ c ∧ c ≠ '\x7f' ∧ (l.asciiOnly = true → c ≤ '~')) ∨ (c = '\n' ∧ l.breaksLines = true)

/-- Whether all characters of a text may stand in the text of a layout. -/
def PrintsAll (l : Layout) (cs : List Char) : Prop := ∀ c ∈ cs, l.Prints c

variable {l : Layout}

/-! ## Putting texts together -/

theorem prints_of_ascii {c : Char} (hlow : ' ' ≤ c) (hhigh : c ≤ '~') : l.Prints c := by
  refine .inl ⟨hlow, ?_, fun _ => hhigh⟩
  rintro rfl
  exact absurd hhigh (by decide)

theorem printsAll_nil : l.PrintsAll [] := nofun

theorem PrintsAll.cons {c : Char} {cs : List Char} (hc : l.Prints c) (hcs : l.PrintsAll cs) :
    l.PrintsAll (c :: cs) := List.forall_mem_cons.mpr ⟨hc, hcs⟩

theorem PrintsAll.append {as bs : List Char} (ha : l.PrintsAll as) (hb : l.PrintsAll bs) :
    l.PrintsAll (as ++ bs) := List.forall_mem_append.mpr ⟨ha, hb⟩

/-- Texts of printable ASCII can be checked by running through them. -/
theorem printsAll_of_all {cs : List Char} (h : cs.all (fun c => ' ' ≤ c && c ≤ '~') = true) :
    l.PrintsAll cs := by
  intro c hc
  have hbounds := List.all_eq_true.mp h c hc
  rw [Bool.and_eq_true, decide_eq_true_iff, decide_eq_true_iff] at hbounds
  exact prints_of_ascii hbounds.1 hbounds.2

/-! ## String literals -/

theorem printsAll_unitEscape (unit : Nat) : l.PrintsAll (Text.unitEscape unit) := by
  have hdigit : ∀ n : Nat, l.Prints (Text.hexDigit (n % 16)) := by
    have hall : ∀ m < 16, ' ' ≤ Text.hexDigit m ∧ Text.hexDigit m ≤ '~' := by decide
    intro n
    obtain ⟨hlow, hhigh⟩ := hall _ (Nat.mod_lt n (by decide))
    exact prints_of_ascii hlow hhigh
  have hstart : l.PrintsAll ['\\', 'u'] := printsAll_of_all rfl
  exact hstart.append (.cons (hdigit _) (.cons (hdigit _) (.cons (hdigit _)
    (.cons (hdigit _) printsAll_nil))))

theorem printsAll_charEscape (c : Char) : l.PrintsAll (Text.charEscape c) := by
  intro d hd
  obtain ⟨unit, -, hunit⟩ := List.mem_flatMap.mp hd
  exact printsAll_unitEscape unit d hunit

/-- What is printed for a character of a string. -/
theorem printsAll_charText (c : Char) : l.PrintsAll (l.charText c) := by
  rw [charText]
  split_ifs with hquote hslash hn hr ht hb hf hescaped
  · exact printsAll_of_all rfl
  · exact printsAll_of_all rfl
  · exact printsAll_of_all rfl
  · exact printsAll_of_all rfl
  · exact printsAll_of_all rfl
  · exact printsAll_of_all rfl
  · exact printsAll_of_all rfl
  · exact printsAll_charEscape c
  · -- nothing is left to escape: no control character, and beyond ASCII only where that may stand
    rw [Bool.or_eq_true, Bool.or_eq_true, Bool.and_eq_true, decide_eq_true_iff, decide_eq_true_iff,
      decide_eq_true_iff, not_or, not_or, not_and] at hescaped
    obtain ⟨⟨hlow, hdelete⟩, hhigh⟩ := hescaped
    refine .cons (.inl ⟨Char.not_lt.mp hlow, hdelete, fun hascii => ?_⟩) printsAll_nil
    have hle : ¬ 127 < c.toNat := hhigh hascii
    have hne : c.toNat ≠ 127 := fun h => hdelete (Char.toNat_inj.mp h)
    show c.toNat ≤ 126
    omega

theorem printsAll_stringText (s : String) : l.PrintsAll (l.stringText s) := by
  have hbody : l.PrintsAll (s.toList.flatMap l.charText) := by
    intro c hc
    obtain ⟨d, -, hd⟩ := List.mem_flatMap.mp hc
    exact printsAll_charText d c hd
  exact .cons (prints_of_ascii (by decide) (by decide)) (hbody.append (printsAll_of_all rfl))

/-! ## Numbers -/

theorem printsAll_numberText (n : Number) : l.PrintsAll (numberText n) := by
  rw [numberText]
  split
  · next h =>
    obtain ⟨x, -, hx, -⟩ := NumberFormat.exists_numeral .plain h
    rw [hx]
    intro c hc
    rcases Numeral.isNumeral_of_mem_text hc with hdigit | hmark
    · rw [Char.isDigit, Bool.and_eq_true, decide_eq_true_iff, decide_eq_true_iff] at hdigit
      exact prints_of_ascii (UInt32.le_trans (by decide) hdigit.1)
        (UInt32.le_trans hdigit.2 (by decide))
    · have hmarks : l.PrintsAll ['-', '+', '.', 'e', 'E'] := printsAll_of_all rfl
      exact hmarks c hmark
  · exact printsAll_of_all rfl

/-! ## Values -/

theorem printsAll_slotText (depth : Nat) (slot : Slot) : l.PrintsAll (l.slotText depth slot) := by
  intro c hc
  rcases mem_slotText hc with rfl | rfl
  · rcases slotText_cases l depth slot with ⟨-, hbreaks⟩ | hnone
    · exact .inr ⟨rfl, hbreaks⟩
    · exact absurd hc hnone
  · exact prints_of_ascii (by decide) (by decide)

theorem printsAll_signText (s : Sign) : l.PrintsAll (l.signText s) := by
  cases s with
  | string s => exact printsAll_stringText s
  | number n => exact printsAll_numberText n
  | bool b => cases b <;> exact printsAll_of_all rfl
  | _ => exact printsAll_of_all rfl

/-- **What may stand in printed text.** -/
theorem printsAll_valueText (l : Layout) (depth : Nat) (v : Value) :
    l.PrintsAll (l.valueText depth v) := by
  intro c hc
  rw [valueText_eq_flatMap] at hc
  obtain ⟨p, -, hp⟩ := List.mem_flatMap.mp hc
  exact (printsAll_slotText p.depth p.slot).append (printsAll_signText p.sign) c hp

end Layout

/-- A value stands in one line, unless the layout breaks lines. -/
theorem Value.newline_notMem_print {l : Layout} (h : l.breaksLines = false) (v : Value) :
    '\n' ∉ (v.print l).toList := by
  intro hmem
  rw [Value.print, String.toList_ofList] at hmem
  rcases Layout.printsAll_valueText l 0 v _ hmem with ⟨hlow, -⟩ | ⟨-, hbreaks⟩
  · exact absurd hlow (by decide)
  · rw [h] at hbreaks
    cases hbreaks

namespace Canonical

open Layout

theorem isCanonical_of_prints {l : Layout} {c : Char} (h : l.ascii.Prints c) :
    isCanonical c = true := by
  rcases h with ⟨hlow, -, hhigh⟩ | ⟨rfl, -⟩
  · simp [isCanonical, hlow, hhigh rfl]
  · rfl

/-- **Escaping all but ASCII is what putting into canonical form does.** Whatever value is printed
in whatever layout, the canonical form of the text is what the layout prints with all but ASCII
escaped. That consists of printable ASCII and line feeds, and is its own canonical form. -/
theorem ofText_print (v : Value) (l : Layout) :
    ofText (v.print l) = .ok (v.print l.ascii)
    ∧ (∀ c ∈ (v.print l.ascii).toList, (' ' ≤ c ∧ c ≤ '~') ∨ c = '\n')
    ∧ isUnchanged (v.print l.ascii) = true
    ∧ ofText (v.print l.ascii) = .ok (v.print l.ascii) := by
  have hform : ofText (v.print l) = .ok (v.print l.ascii) := by
    rw [ofText, Value.print, String.toList_ofList, ofChars_of_becomes (becomes_valueText l 0 v)]
    rfl
  have hprints : l.ascii.PrintsAll (v.print l.ascii).toList := by
    rw [Value.print, String.toList_ofList]
    exact printsAll_valueText l.ascii 0 v
  have hunchanged : isUnchanged (v.print l.ascii) = true :=
    List.all_eq_true.mpr fun c hc => isCanonical_of_prints (hprints c hc)
  refine ⟨hform, fun c hc => ?_, hunchanged, ofText_of_isUnchanged hunchanged⟩
  rcases hprints c hc with ⟨hlow, -, hhigh⟩ | ⟨hfeed, -⟩
  · exact .inl ⟨hlow, hhigh rfl⟩
  · exact .inr hfeed

end Canonical

end JsonAxes
