import JsonAxes.Proofs.Path.Grammar

/-!
# What is written of a path

A path is written step by step, each step as the name of its axis, its test and its position, and
nothing is abbreviated. What is written of a step is derived by the grammar for the step itself
(`Surface.spelledBy_text`), and the whole text of a path for all of its steps
(`Surface.spelledBy_pathText`).

A name can be written if at most one kind of quote is in it (`IsQuotable`), and a position if it
is among those that can be read (`IsPosition`).
-/

set_option autoImplicit false

namespace JsonAxes

/-- Whether at most one kind of quote is in a name, so that the other can stand around it. -/
def IsQuotable (name : String) : Prop := '"' ∈ name.toList → '\'' ∉ name.toList

instance : DecidablePred IsQuotable := fun name =>
  inferInstanceAs (Decidable ('"' ∈ name.toList → '\'' ∉ name.toList))

/-! ## Texts of what is spelled -/

/-- The text of a test with its name spelled out. -/
def SpelledTest.text : SpelledTest → List Char
  | .wildcard => ['*']
  | .node => "node()".toList
  | .name n => Path.nameText n

/-- What the text of a test is read as. -/
def SpelledTest.surface : SpelledTest → Surface.Test
  | .wildcard => .wildcard
  | .node => .function "node"
  | .name n => .name n

/-- The text of a step with the name of its test spelled out. -/
def SpelledStep.text (s : SpelledStep) : List Char :=
  s.axis.name.toList ++ ([':', ':'] ++ (s.test.text ++ Path.positionText s.position?))

/-- The text of the steps behind the first, each with a separator in front. -/
def Surface.moreText (ts : List SpelledStep) : List Char := ts.flatMap fun t => '/' :: t.text

/-- The text of a path, from what its steps spell. -/
def Surface.pathText (absolute : Bool) : List SpelledStep → List Char
  | [] => if absolute then ['/'] else ['.']
  | t :: ts => (if absolute then ['/'] else []) ++ (t.text ++ moreText ts)

/-- Whether a step can be written so that it is read back. -/
structure SpelledStep.IsWritable (s : SpelledStep) : Prop where
  name : ∀ name, s.test = .name name → IsQuotable name
  position : ∀ n, s.position? = some n → IsPosition n

namespace Path

theorem testText_eq (names : NameTable) (t : NodeTest) :
    testText names t = (t.spelled names).text := by
  cases t <;> rfl

theorem stepText_eq (names : NameTable) (s : Step) : stepText names s = (s.spelled names).text := by
  rw [stepText, testText_eq]
  rfl

theorem stepsText_eq (names : NameTable) (steps : List Step) :
    stepsText names steps = Surface.moreText (steps.map (Step.spelled names)) := by
  rw [Surface.moreText, List.flatMap_map, stepsText]
  exact List.flatMap_congr fun s _ => congrArg ('/' :: ·) (stepText_eq names s)

/-- The text of a path depends on what it spells. -/
theorem text_eq (p : Path) : p.text = Surface.pathText p.absolute p.spelled := by
  unfold text spelled
  cases p.steps with
  | nil => rfl
  | cons s rest =>
      simp only [List.map_cons, Surface.pathText, stepText_eq, stepsText_eq, List.append_assoc]

end Path

namespace Surface

/-! ## Tests -/

/-- The three ways to write a name. -/
theorem nameText_cases (name : String) :
    (name.toList ≠ [] ∧ (∀ c ∈ name.toList, Path.isNameChar c = true)
      ∧ Path.nameText name = name.toList)
    ∨ ('"' ∉ name.toList ∧ Path.nameText name = '"' :: (name.toList ++ ['"']))
    ∨ ('"' ∈ name.toList ∧ Path.nameText name = '\'' :: (name.toList ++ ['\''])) := by
  simp only [Path.nameText]
  split
  · next h =>
    rw [Bool.and_eq_true, Bool.not_eq_true', List.isEmpty_eq_false_iff, List.all_eq_true] at h
    exact .inl ⟨h.1, h.2, rfl⟩
  · split
    · next h => exact .inr (.inr ⟨List.contains_iff_mem.mp h, rfl⟩)
    · next h => exact .inr (.inl ⟨h ∘ List.contains_iff_mem.mpr, rfl⟩)

/-- A name is written as itself, with or without quotes. -/
theorem spelledBy_nameText {name : String} (h : IsQuotable name) :
    (Test.name name).SpelledBy (Path.nameText name) := by
  have hname : String.ofList name.toList = name := String.ofList_toList
  rcases nameText_cases name with ⟨hne, hchars, htext⟩ | ⟨hdouble, htext⟩ | ⟨hdouble, htext⟩
  · have hplain := Test.SpelledBy.plain ⟨hne, hchars⟩
    rwa [hname, ← htext] at hplain
  · have hquoted := Test.SpelledBy.quoted (.inl rfl) hdouble
    rwa [hname, ← htext] at hquoted
  · have hquoted := Test.SpelledBy.quoted (.inr rfl) (h hdouble)
    rwa [hname, ← htext] at hquoted

theorem spelledBy_test {t : SpelledTest} (ht : ∀ name, t = .name name → IsQuotable name) :
    t.surface.SpelledBy t.text := by
  cases t with
  | wildcard => exact .wildcard
  | node =>
      have hnode : IsPlainName "node".toList :=
        ⟨by decide, List.all_eq_true.mp (by decide)⟩
      exact .function hnode
  | name name => exact spelledBy_nameText (ht name rfl)

theorem standsFor_surface (t : SpelledTest) : t.surface.StandsFor t := by
  cases t with
  | wildcard => exact .wildcard
  | node => exact .node
  | name name => exact .name name

/-! ## Positions -/

theorem isDecimal_toDigits {n : Nat} (hn : 1 ≤ n) : IsDecimal n (Nat.toDigits 10 n) where
  isDigit _ hc := Nat.isDigit_of_mem_toDigits (by decide) (by decide) hc
  head := Text.head?_toDigits hn
  value := Nat.ofDigitChars_ten_toDigits

/-- The position of a step is written as its only predicate. -/
theorem spelledBy_positionText {position? : Option Nat}
    (h : ∀ n, position? = some n → IsPosition n) :
    PredicatesSpelledBy position?.toList (Path.positionText position?) := by
  cases position? with
  | none => exact .nil
  | some n =>
      have hn := h n rfl
      have hpredicate : PredicateSpelledBy n (Path.positionText (some n)) :=
        .mk hn isBlank_nil (isDecimal_toDigits hn.1) isBlank_nil
      have hpredicates := PredicatesSpelledBy.cons hpredicate .nil
      rwa [List.append_nil] at hpredicates

/-! ## Steps and paths -/

theorem isPlainName_axis (axis : Axis) : IsPlainName axis.name.toList := by
  refine ⟨?_, List.all_eq_true.mp ?_⟩
  · cases axis <;> decide
  · cases axis <;> decide

/-- The step that is written for another. -/
def written (t : SpelledStep) : WrittenStep :=
  .along t.axis.name t.test.surface t.position?.toList

theorem spelledBy_text {t : SpelledStep} (ht : t.IsWritable) : (written t).SpelledBy t.text := by
  have hstep := WrittenStep.SpelledBy.along (isPlainName_axis t.axis) (spelledBy_test ht.name)
    (spelledBy_positionText ht.position)
  rwa [String.ofList_toList] at hstep

theorem standsFor_written (t : SpelledStep) : (written t).StandsFor t :=
  .along t.axis (standsFor_surface t.test) t.position?

/-- The steps that are written for others, each behind a single slash. -/
def writtenSteps (ts : List SpelledStep) : List (Separator × WrittenStep) :=
  ts.map fun t => (.child, written t)

theorem spelledBy_moreText {ts : List SpelledStep} (hts : ∀ t ∈ ts, t.IsWritable) :
    MoreSpelledBy (writtenSteps ts) (moreText ts) := by
  induction ts with
  | nil => exact .nil
  | cons t ts ih =>
      have hslash : Separator.child.SpelledBy ['/'] := .mk (s := .child) isBlank_nil isBlank_nil
      have hmore := ih (fun u hu => hts u (List.mem_cons_of_mem t hu))
      exact .cons hslash (spelledBy_text (hts t List.mem_cons_self)) hmore

theorem standFor_writtenSteps (ts : List SpelledStep) : StandFor (writtenSteps ts) ts := by
  induction ts with
  | nil => exact .nil
  | cons t ts ih => exact .cons .child (standsFor_written t) ih

/-- The leading separator of a path. -/
def lead? (absolute : Bool) : Option Separator := if absolute then some .child else none

theorem isSome_lead? (absolute : Bool) : (lead? absolute).isSome = absolute := by
  cases absolute <;> rfl

/-- The path that is written for steps. -/
def writtenPath (absolute : Bool) : List SpelledStep → Written
  | [] => ⟨lead? absolute, none⟩
  | t :: ts => ⟨lead? absolute, some (written t, writtenSteps ts)⟩

theorem leading?_writtenPath (absolute : Bool) (ts : List SpelledStep) :
    (writtenPath absolute ts).leading?.isSome = absolute := by
  cases ts <;> exact isSome_lead? absolute

/-- The whole text of a path is derived for its steps, except for the single dot of the path that
has nothing to write. -/
theorem spelledBy_pathText {absolute : Bool} {ts : List SpelledStep}
    (hts : ∀ t ∈ ts, t.IsWritable) (hne : absolute = true ∨ ts ≠ []) :
    (writtenPath absolute ts).SpelledBy (pathText absolute ts) := by
  have hslash : LeadingSpelledBy (some .child) ['/'] :=
    .some (.mk (s := .child) isBlank_nil isBlank_nil)
  cases ts with
  | nil =>
      rw [hne.resolve_right (absurd rfl)]
      exact .bare (by decide) isBlank_nil hslash isBlank_nil
  | cons t ts =>
      have hlead : LeadingSpelledBy (lead? absolute) (if absolute then ['/'] else []) := by
        cases absolute with
        | true => exact hslash
        | false => exact .none
      have hmore := spelledBy_moreText (fun u hu => hts u (List.mem_cons_of_mem t hu))
      have hpath := Written.SpelledBy.steps isBlank_nil hlead
        (spelledBy_text (hts t List.mem_cons_self)) hmore isBlank_nil
      rwa [List.append_nil] at hpath

theorem standFor_writtenPath (absolute : Bool) (ts : List SpelledStep) :
    StandFor (writtenPath absolute ts).steps ts := by
  cases ts with
  | nil => exact .nil
  | cons t ts =>
      cases absolute with
      | true => exact .cons .child (standsFor_written t) (standFor_writtenSteps ts)
      | false => exact .cons .child (standsFor_written t) (standFor_writtenSteps ts)

end Surface

end JsonAxes
