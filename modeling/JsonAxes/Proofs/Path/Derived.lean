import JsonAxes.Proofs.Path.Grammar

/-!
# Reading what the grammar derives

Each piece of the grammar is read as what it is derived for, as long as what stands behind it does
not carry it on: a test ends before a predicate, a separator or white space (`EndsTest`), a step
before a separator or white space (`EndsStep`), and no separator is followed by a slash or more
white space (`FollowsSeparator`). What a reader tries first must fail then. So a test by itself is
not taken for the name of an axis (`Surface.axisPart?_eq_none`), one dot not for two, nor a single
slash for a double one. The longest piece is a whole path (`Surface.exists_ofText?_of_spelledBy`).

The offset behind a piece is the one in front of it and the bytes of the piece, which gives the
parts of a step their places (`Surface.step?_append`).
-/

set_option autoImplicit false

namespace JsonAxes

namespace Surface

variable {rest : List Char}

/-- A test is read up to where it ends. -/
theorem takes_test {t : Test} {cs : List Char} (h : t.SpelledBy cs) (hrest : EndsTest rest) :
    Takes test? cs rest (· = t) := by
  intro offset
  cases h with
  | wildcard => exact ⟨.wildcard, test?_of_star (expect?_append offset ['*'] rest), rfl⟩
  | @function cs h =>
      have hparen : ∀ c ∈ (['(', ')'] ++ rest).head?, Path.isNameChar c = false := by
        rintro c ⟨⟩
        exact isNameChar_mark _ (by decide)
      obtain ⟨_, hread, rfl⟩ := takes_plainName h.ne_nil h.isNameChar hparen offset
      have hstar := head?_append_ne h.ne_nil h.isNameChar (['(', ')'] ++ rest)
        (isNameChar_mark '*' (by decide))
      rw [List.append_assoc, Text.utf8Length_append, ← Nat.add_assoc]
      exact ⟨_, test?_of_call hread hstar (expect?_append _ _ rest), rfl⟩
  | @plain cs h =>
      obtain ⟨_, hread, rfl⟩ :=
        takes_plainName h.ne_nil h.isNameChar hrest.isNameChar offset
      have hstar := head?_append_ne h.ne_nil h.isNameChar rest (isNameChar_mark '*' (by decide))
      have hcall : rest.head? ≠ some '(' := hrest.head?_ne (by decide) (by decide)
      exact ⟨_, test?_of_plainName hread hstar hcall, rfl⟩
  | @quoted quote cs hquote h =>
      obtain ⟨_, hread, rfl⟩ := takes_quotedName h offset
      have hplain := plainName?_quote offset hquote (cs ++ [quote] ++ rest)
      refine ⟨_, ?_, rfl⟩
      rcases hquote with rfl | rfl
      · exact test?_of_doubleQuoted hplain (by simp) hread
      · exact test?_of_singleQuoted hplain (by simp) (by simp) hread

/-! ### Predicates -/

theorem IsDecimal.exists_cons {n : Nat} {cs : List Char} (h : IsDecimal n cs) (hn : 1 ≤ n) :
    ∃ d ds, cs = d :: ds ∧ d.isDigit = true := by
  cases cs with
  | nil =>
      have hzero : n = 0 := h.value.symm
      omega
  | cons d ds => exact ⟨d, ds, rfl, h.isDigit d List.mem_cons_self⟩

theorem takes_position {n : Nat} {cs : List Char} (hn : IsPosition n) (h : IsDecimal n cs)
    (hrest : ∀ c ∈ rest.head?, c.isDigit = false) : Takes position? cs rest (· = n) := by
  intro offset
  have hvalue : cs.foldl (fun n c => 10 * n + (c.toNat - '0'.toNat)) 0 = n := by
    rw [← Nat.ofDigitChars_eq_foldl, h.value]
  have hdigits : (cs ++ rest).takeWhile Char.isDigit = cs :=
    Text.takeWhile_append h.isDigit hrest
  refine ⟨n, ?_, rfl⟩
  unfold position?
  dsimp only
  rw [hdigits, hvalue, advance_append, if_pos ⟨h.head, hn.1, hn.2⟩]

/-- White space is no digit. -/
theorem isDigit_of_isWhitespace {c : Char} (h : Text.isWhitespace c = true) :
    c.isDigit = false := by
  by_contra hdigit
  rw [Bool.not_eq_false] at hdigit
  rw [isWhitespace_of_isDigit hdigit] at h
  cases h

/-- A predicate is read with the place that it takes, brackets included. -/
theorem predicate?_append {n : Nat} {cs : List Char} (h : PredicateSpelledBy n cs)
    (offset : Nat) : predicate? ⟨offset, cs ++ rest⟩
      = some ((n, ⟨offset, offset + Text.utf8Length cs⟩),
        ⟨offset + Text.utf8Length cs, rest⟩) := by
  cases h with
  | @mk front digits behind hn hfront hdigits hbehind =>
      obtain ⟨d, ds, hcons, hd⟩ := hdigits.exists_cons hn.1
      -- the digits end where the white space or the bracket behind them begins
      have hstop : ∀ c ∈ (behind ++ ([']'] ++ rest)).head?, c.isDigit = false := by
        intro c hc
        cases behind with
        | nil =>
            cases hc
            decide
        | cons b behind =>
            cases hc
            exact isDigit_of_isWhitespace (hbehind c List.mem_cons_self)
      have hfirst : ∀ c ∈ (digits ++ (behind ++ ([']'] ++ rest))).head?,
          Text.isWhitespace c = false := by
        rw [hcons]
        rintro c ⟨⟩
        exact isWhitespace_of_isDigit hd
      have hbracket : ∀ c ∈ ([']'] ++ rest).head?, Text.isWhitespace c = false := by
        rintro c ⟨⟩
        exact isWhitespace_mark _ (by decide)
      have htext : '[' :: (front ++ (digits ++ (behind ++ [']']))) ++ rest
          = ['['] ++ (front ++ (digits ++ (behind ++ ([']'] ++ rest)))) := by
        simp only [List.cons_append, List.append_assoc, List.nil_append]
      obtain ⟨m, hread, rfl⟩ := takes_position hn hdigits hstop
        (offset + Text.utf8Length ['['] + Text.utf8Length front)
      rw [htext, predicate?, expect?_append]
      simp only [Option.bind_eq_bind, Option.bind_some, skipBlanks_append hfront hfirst, hread,
        skipBlanks_append hbehind hbracket, expect?_append, Option.pure_def, Rest.spanTo]
      simp only [Text.utf8Length_cons, Text.utf8Length_append, Text.utf8Length_nil, Nat.add_assoc,
        Nat.add_zero]

/-- Predicates are read as long as there are any. -/
theorem predicates_append {ns : List Nat} {cs : List Char} (h : PredicatesSpelledBy ns cs)
    (hrest : rest.head? ≠ some '[') (offset : Nat) :
    ∃ ps, predicates ⟨offset, cs ++ rest⟩ = (ps, ⟨offset + Text.utf8Length cs, rest⟩)
      ∧ ps.map Prod.fst = ns := by
  induction h generalizing offset with
  | nil => exact ⟨[], predicates_of_none (predicate?_eq_none hrest), rfl⟩
  | @cons n ns cs ds hn _ ih =>
      obtain ⟨ps, hmore, rfl⟩ := ih (offset + Text.utf8Length cs)
      refine ⟨(n, ⟨offset, offset + Text.utf8Length cs⟩) :: ps, ?_, rfl⟩
      rw [List.append_assoc, predicates_of_some (predicate?_append hn offset), hmore,
        Text.utf8Length_append, Nat.add_assoc]

theorem PredicatesSpelledBy.endsTest_append {ns : List Nat} {cs : List Char}
    (h : PredicatesSpelledBy ns cs) (hrest : EndsStep rest) : EndsTest (cs ++ rest) := by
  intro c hc
  cases h with
  | nil => exact .inr (hrest c hc)
  | cons hn _ =>
      cases hn with
      | mk _ _ _ _ =>
          cases hc
          exact .inl rfl

/-! ### Steps -/

/-- What is read of a step, apart from the places of its parts. -/
def Step.parts (s : Step) : AxisPart × Test × List Nat :=
  (s.axis, s.test, s.predicates.map Prod.fst)

/-- What is to be read of a step that is written. -/
def WrittenStep.parts : WrittenStep → AxisPart × Test × List Nat
  | .self => (.implied .self, .function "node", [])
  | .parent => (.implied .parent, .function "node", [])
  | .attributes test ns => (.implied .attributes, test, ns)
  | .along axis test ns => (.named axis, test, ns)
  | .child test ns => (.implied .child, test, ns)

theorem WrittenStep.parts_injective {s t : WrittenStep} (h : s.parts = t.parts) : s = t := by
  cases s <;> cases t <;> simp_all [WrittenStep.parts]

/-- An axis, a test and predicates make a step. -/
theorem WrittenStep.exists_spelledBy {axis : AxisPart} {test : Test} {ns : List Nat}
    {as ts ps : List Char} (ha : axis.SpelledBy as) (ht : test.SpelledBy ts)
    (hp : PredicatesSpelledBy ns ps) :
    ∃ w : WrittenStep, w.parts = (axis, test, ns) ∧ w.SpelledBy (as ++ (ts ++ ps)) := by
  cases ha with
  | attributes =>
      have hspelled := SpelledBy.attributes ht hp
      exact ⟨.attributes test ns, rfl, hspelled⟩
  | along hname =>
      have hspelled := SpelledBy.along hname ht hp
      rw [List.append_assoc]
      exact ⟨.along _ test ns, rfl, hspelled⟩
  | child =>
      have hspelled := SpelledBy.child ht hp
      exact ⟨.child test ns, rfl, hspelled⟩

/-- A test by itself is not taken for the name of an axis. -/
theorem axisPart?_eq_none {t : Test} {cs : List Char} (h : t.SpelledBy cs) (hrest : EndsTest rest)
    (offset : Nat) : axisPart? ⟨offset, cs ++ rest⟩ = none := by
  have hcolon : rest.head? ≠ some ':' := hrest.head?_ne (by decide) (by decide)
  -- there is no axis where no name can be read, nor behind a name that no colon follows
  have hnone : ∀ {as : List Char}, as.head? ≠ some '@' →
      plainName? ⟨offset, as⟩ = none → axisPart? ⟨offset, as⟩ = none := by
    intro as hat hplain
    rw [axisPart?, expect?_eq_none hat]
    simp only [hplain, Option.bind_eq_bind, Option.bind_none]
  have hname : ∀ {as behind : List Char}, IsPlainName as →
      (∀ c ∈ behind.head?, Path.isNameChar c = false) → behind.head? ≠ some ':' →
      axisPart? ⟨offset, as ++ behind⟩ = none := by
    intro as behind has hstop hne
    obtain ⟨_, hread, rfl⟩ := takes_plainName has.ne_nil has.isNameChar hstop offset
    have hat := head?_append_ne has.ne_nil has.isNameChar behind (isNameChar_mark '@' (by decide))
    have hnext : (⟨offset + Text.utf8Length as, behind⟩ : Rest).expect? [':', ':'] = none :=
      expect?_eq_none hne
    rw [axisPart?, expect?_eq_none hat]
    simp only [hread, Option.bind_eq_bind, Option.bind_some, hnext, Option.bind_none]
  cases h with
  | wildcard =>
      refine hnone (by simp) (plainName?_eq_none ?_)
      rintro c ⟨⟩
      exact isNameChar_mark _ (by decide)
  | function h =>
      rw [List.append_assoc]
      refine hname h ?_ (by simp)
      rintro c ⟨⟩
      exact isNameChar_mark _ (by decide)
  | plain h => exact hname h hrest.isNameChar hcolon
  | @quoted quote cs hquote _ =>
      refine hnone ?_ (plainName?_quote offset hquote _)
      rcases hquote with rfl | rfl <;> simp

theorem head?_ne_of_isPlainName {cs : List Char} (h : IsPlainName cs) (rest : List Char)
    {d : Char} (hd : d = '.' ∨ d = '/' ∨ Text.isWhitespace d = true) :
    (cs ++ rest).head? ≠ some d := by
  apply head?_append_ne h.ne_nil h.isNameChar
  rcases hd with rfl | rfl | hblank
  · exact isNameChar_mark _ (by decide)
  · exact isNameChar_mark _ (by decide)
  · exact isNameChar_of_isWhitespace hblank

/-- A test begins neither with a dot nor with what ends a step. -/
theorem Test.SpelledBy.head?_ne {t : Test} {cs : List Char} (h : t.SpelledBy cs)
    (rest : List Char) {d : Char} (hd : d = '.' ∨ d = '/' ∨ Text.isWhitespace d = true) :
    (cs ++ rest).head? ≠ some d := by
  have hall : ∀ c ∈ ['*', '"', '\''], c ≠ '.' ∧ c ≠ '/' ∧ Text.isWhitespace c = false :=
    List.forall_iff_forall_mem.mp (by decide)
  have hmark : ∀ c ∈ ['*', '"', '\''], c ≠ d := by
    rintro c hc rfl
    have hother := hall c hc
    rcases hd with rfl | rfl | hblank
    · exact hother.1 rfl
    · exact hother.2.1 rfl
    · rw [hother.2.2] at hblank
      cases hblank
  cases h with
  | wildcard =>
      intro hhead
      exact hmark '*' (by decide) (Option.some.inj hhead)
  | function h =>
      rw [List.append_assoc]
      exact head?_ne_of_isPlainName h _ hd
  | plain h => exact head?_ne_of_isPlainName h _ hd
  | quoted hquote _ =>
      intro hhead
      rcases hquote with rfl | rfl
      · exact hmark '"' (by decide) (Option.some.inj hhead)
      · exact hmark '\'' (by decide) (Option.some.inj hhead)

theorem step?_of_head?_ne {r : Rest} (h : r.chars.head? ≠ some '.') :
    step? r = (axisStep? r).or (testStep? r) := by
  rw [step?, expect?_eq_none h, expect?_eq_none h]

/-- What stands in front of a test is read as its axis; a name with the place that it takes, without
the colons. -/
theorem axisPart?_append {name : List Char} (h : IsPlainName name) (offset : Nat) :
    axisPart? ⟨offset, name ++ [':', ':'] ++ rest⟩
      = some ((.named (String.ofList name), ⟨offset, offset + Text.utf8Length name⟩),
        ⟨offset + Text.utf8Length (name ++ [':', ':']), rest⟩) := by
  have hcolon : ∀ c ∈ ([':', ':'] ++ rest).head?, Path.isNameChar c = false := by
    rintro c ⟨⟩
    exact isNameChar_mark _ (by decide)
  have hat := head?_append_ne h.ne_nil h.isNameChar ([':', ':'] ++ rest)
    (isNameChar_mark '@' (by decide))
  obtain ⟨_, hread, rfl⟩ := takes_plainName h.ne_nil h.isNameChar hcolon offset
  rw [List.append_assoc, axisPart?, expect?_eq_none hat]
  simp only [hread, Option.bind_eq_bind, Option.bind_some, expect?_append, Option.pure_def,
    Rest.spanTo, Text.utf8Length_append, Nat.add_assoc]

/-- A test with its predicates is read behind its axis, each with the place that it takes. -/
theorem step?_append {axis : AxisPart} {test : Test} {as ts ps : List Char} (ha : axis.SpelledBy as)
    (ht : test.SpelledBy ts) (hends : EndsTest (ps ++ rest)) {offset : Nat}
    {qs : List (Nat × Span)} {last : Rest}
    (hp : predicates ⟨offset + Text.utf8Length as + Text.utf8Length ts, ps ++ rest⟩ = (qs, last)) :
    ∃ span, step? ⟨offset, as ++ (ts ++ ps) ++ rest⟩
        = some (⟨axis, span, test, ⟨offset + Text.utf8Length as,
          offset + Text.utf8Length as + Text.utf8Length ts⟩, qs⟩, last)
      ∧ ∀ name, axis = .named (String.ofList name) →
        span = ⟨offset, offset + Text.utf8Length name⟩ := by
  obtain ⟨test', htest, htest'⟩ := takes_test ht hends (offset + Text.utf8Length as)
  rw [htest'] at htest
  -- an axis that is written is tried first
  have hstep : ∀ {span : Span}, (as ++ (ts ++ ps) ++ rest).head? ≠ some '.' →
      axisPart? ⟨offset, as ++ (ts ++ (ps ++ rest))⟩
        = some ((axis, span), ⟨offset + Text.utf8Length as, ts ++ (ps ++ rest)⟩) →
      step? ⟨offset, as ++ (ts ++ ps) ++ rest⟩
        = some (⟨axis, span, test, ⟨offset + Text.utf8Length as,
          offset + Text.utf8Length as + Text.utf8Length ts⟩, qs⟩, last) := by
    intro span hdot haxis
    rw [step?_of_head?_ne hdot, List.append_assoc, List.append_assoc, axisStep?]
    simp only [haxis, htest, hp, Option.bind_eq_bind, Option.bind_some, Option.pure_def,
      Rest.spanTo, Option.some_or]
  cases ha with
  | attributes =>
      refine ⟨⟨offset, offset + Text.utf8Length ['@']⟩, hstep (by simp) ?_, ?_⟩
      · rw [axisPart?, expect?_append]
        rfl
      · rintro _ ⟨⟩
  | @along name hname =>
      have hdot := head?_append_ne hname.ne_nil hname.isNameChar
        ([':', ':'] ++ (ts ++ ps ++ rest)) (isNameChar_mark '.' (by decide))
      refine ⟨⟨offset, offset + Text.utf8Length name⟩, hstep ?_ (axisPart?_append hname offset), ?_⟩
      · simpa only [List.append_assoc] using hdot
      · intro name' heq
        rw [String.ofList_injective (AxisPart.named.inj heq)]
  | child =>
      -- a test without an axis is not taken for the name of one
      have haxis : axisStep? ⟨offset, ts ++ (ps ++ rest)⟩ = none := by
        rw [axisStep?, axisPart?_eq_none ht hends]
        rfl
      have hdot := ht.head?_ne (ps ++ rest) (.inl rfl)
      refine ⟨⟨offset, offset + Text.utf8Length ts⟩, ?_, ?_⟩
      · rw [List.nil_append, List.append_assoc, step?_of_head?_ne hdot, haxis, Option.none_or,
          testStep?]
        rw [Text.utf8Length_nil, Nat.add_zero] at htest hp
        simp only [htest, hp, Option.bind_eq_bind, Option.bind_some, Option.pure_def, Rest.spanTo,
          Text.utf8Length_nil, Nat.add_zero]
      · rintro _ ⟨⟩

/-- A step with an axis, a test and predicates is read up to where it ends. -/
theorem takes_parts {axis : AxisPart} {test : Test} {ns : List Nat} {as ts ps : List Char}
    (ha : axis.SpelledBy as) (ht : test.SpelledBy ts) (hp : PredicatesSpelledBy ns ps)
    (hrest : EndsStep rest) :
    Takes step? (as ++ (ts ++ ps)) rest (·.parts = (axis, test, ns)) := by
  intro offset
  have hbracket : rest.head? ≠ some '[' := hrest.head?_ne (by decide) (by decide)
  obtain ⟨qs, hpredicates, rfl⟩ := predicates_append hp hbracket
    (offset + Text.utf8Length as + Text.utf8Length ts)
  obtain ⟨span, hread, -⟩ := step?_append ha ht (hp.endsTest_append hrest) hpredicates
  simp only [Text.utf8Length_append, ← Nat.add_assoc]
  exact ⟨_, hread, rfl⟩

/-- A step is read up to where it ends. -/
theorem takes_step {s : WrittenStep} {cs : List Char} (h : s.SpelledBy cs)
    (hrest : EndsStep rest) : Takes step? cs rest (·.parts = s.parts) := by
  cases h with
  | self =>
      intro offset
      -- one dot is no pair of dots, since a step ends behind it
      have hdot : rest.head? ≠ some '.' := hrest.head?_ne (by decide) (by decide)
      let last := offset + Text.utf8Length ['.']
      refine ⟨(abbreviated .self ⟨offset, ['.'] ++ rest⟩ ⟨last, rest⟩).1, ?_, rfl⟩
      rw [step?, expect?_double_eq_none hdot, expect?_append]
      rfl
  | parent =>
      intro offset
      let last := offset + Text.utf8Length ['.', '.']
      refine ⟨(abbreviated .parent ⟨offset, ['.', '.'] ++ rest⟩ ⟨last, rest⟩).1, ?_, rfl⟩
      rw [step?, expect?_append]
      rfl
  | attributes ht hp => exact takes_parts .attributes ht hp hrest
  | along ha ht hp =>
      have htakes := takes_parts (.along ha) ht hp hrest
      rwa [List.append_assoc] at htakes
  | child ht hp => exact takes_parts .child ht hp hrest

theorem WrittenStep.SpelledBy.head?_ne {s : WrittenStep} {cs : List Char} (h : s.SpelledBy cs)
    (rest : List Char) {d : Char} (hd : d = '/' ∨ Text.isWhitespace d = true) :
    (cs ++ rest).head? ≠ some d := by
  have hall : ∀ c ∈ ['.', '@'], c ≠ '/' ∧ Text.isWhitespace c = false :=
    List.forall_iff_forall_mem.mp (by decide)
  have hmark : ∀ c ∈ ['.', '@'], c ≠ d := by
    rintro c hc rfl
    have hother := hall c hc
    rcases hd with rfl | hblank
    · exact hother.1 rfl
    · rw [hother.2] at hblank
      cases hblank
  cases h with
  | self =>
      intro hhead
      exact hmark '.' (by decide) (Option.some.inj hhead)
  | parent =>
      intro hhead
      exact hmark '.' (by decide) (Option.some.inj hhead)
  | attributes _ _ =>
      intro hhead
      exact hmark '@' (by decide) (Option.some.inj hhead)
  | along ha _ _ =>
      rw [List.append_assoc]
      exact head?_ne_of_isPlainName ha _ (.inr hd)
  | child ht _ =>
      rw [List.append_assoc]
      exact ht.head?_ne _ (.inr hd)

/-! ### Separators -/

/-- Whether a text can follow a separator: it carries on neither the slashes nor the white space. -/
structure FollowsSeparator (rest : List Char) : Prop where
  slash : rest.head? ≠ some '/'
  blank : ∀ c ∈ rest.head?, Text.isWhitespace c = false

theorem WrittenStep.SpelledBy.followsSeparator {s : WrittenStep} {cs : List Char}
    (h : s.SpelledBy cs) (rest : List Char) : FollowsSeparator (cs ++ rest) := by
  constructor
  · exact h.head?_ne rest (.inl rfl)
  · intro c hc
    by_contra hblank
    exact h.head?_ne rest (.inr (by simpa using hblank)) hc

theorem followsSeparator_nil : FollowsSeparator [] := ⟨nofun, nofun⟩

/-- A separator is read with the white space around it. -/
theorem takes_separator {s : Separator} {cs : List Char} (h : s.SpelledBy cs)
    (hrest : FollowsSeparator rest) : Takes separator? cs rest (· = s) := by
  intro offset
  cases h with
  | @mk front behind hfront hbehind =>
      have hslash : ∀ c ∈ (s.mark ++ (behind ++ rest)).head?, Text.isWhitespace c = false := by
        cases s with
        | child =>
            rintro c ⟨⟩
            exact isWhitespace_mark _ (by decide)
        | deep =>
            rintro c ⟨⟩
            exact isWhitespace_mark _ (by decide)
      refine ⟨s, ?_, rfl⟩
      rw [List.append_assoc, List.append_assoc, separator?]
      simp only [skipBlanks_append hfront hslash, Text.utf8Length_append, ← Nat.add_assoc]
      cases s with
      | deep =>
          simp only [Separator.mark, expect?_append, skipBlanks_append hbehind hrest.blank]
      | child =>
          have hsecond : (behind ++ rest).head? ≠ some '/' := by
            cases behind with
            | nil => exact hrest.slash
            | cons b behind =>
                rintro ⟨⟩
                have hmark := isWhitespace_mark '/' (by decide)
                rw [hbehind '/' List.mem_cons_self] at hmark
                cases hmark
          simp only [Separator.mark, expect?_double_eq_none hsecond, expect?_append,
            Option.map_some, skipBlanks_append hbehind hrest.blank]

theorem separator?_of_isBlank {cs : List Char} (h : IsBlank cs) (offset : Nat) :
    separator? ⟨offset, cs⟩ = none := by
  have hnone : ∀ {offset : Nat} {c : Char} {more : List Char},
      (⟨offset, []⟩ : Rest).expect? (c :: more) = none := expect?_eq_none nofun
  simp only [separator?, skipBlanks_of_isBlank h, hnone, Option.map_none]

theorem Separator.SpelledBy.endsStep_append {s : Separator} {cs : List Char} (h : s.SpelledBy cs)
    (rest : List Char) : EndsStep (cs ++ rest) := by
  cases h with
  | mk hfront _ =>
      rw [List.append_assoc]
      apply hfront.endsStep_append
      intro c hc
      cases s with
      | child =>
          cases hc
          exact .inl rfl
      | deep =>
          cases hc
          exact .inl rfl

/-! ### Paths -/

theorem MoreSpelledBy.endsStep_append {more : List (Separator × WrittenStep)} {cs rest : List Char}
    (h : MoreSpelledBy more cs) (hrest : EndsStep rest) : EndsStep (cs ++ rest) := by
  cases h with
  | nil => exact hrest
  | cons hs _ _ =>
      rw [List.append_assoc]
      exact hs.endsStep_append _

/-- What is read of steps, apart from the places of their parts. -/
def stepsParts (steps : List (Separator × Step)) :
    List (Separator × AxisPart × Test × List Nat) :=
  steps.map fun s => (s.1, s.2.parts)

/-- What is to be read of steps that are written. -/
def writtenParts (steps : List (Separator × WrittenStep)) :
    List (Separator × AxisPart × Test × List Nat) :=
  steps.map fun s => (s.1, s.2.parts)

/-- A step behind its separator is read, and then those that follow. -/
theorem moreSteps_cons {s : Separator} {w : WrittenStep} {as bs : List Char} (hs : s.SpelledBy as)
    (hstep : w.SpelledBy bs) (offset : Nat) {step : Step} {after : Rest}
    (hread : step? ⟨offset + Text.utf8Length as, bs ++ rest⟩ = some (step, after)) :
    moreSteps ⟨offset, as ++ (bs ++ rest)⟩
      = ((s, step) :: (moreSteps after).1, (moreSteps after).2) := by
  obtain ⟨_, hseparator, rfl⟩ := takes_separator hs (hstep.followsSeparator rest) offset
  exact moreSteps_of_some hseparator hread

/-- The steps behind the first are read one after another, and then those that follow. -/
theorem moreSteps_append {more : List (Separator × WrittenStep)} {cs : List Char}
    (h : MoreSpelledBy more cs) (hrest : EndsStep rest) (offset : Nat) :
    ∃ steps, moreSteps ⟨offset, cs ++ rest⟩
        = (steps ++ (moreSteps ⟨offset + Text.utf8Length cs, rest⟩).1,
          (moreSteps ⟨offset + Text.utf8Length cs, rest⟩).2)
      ∧ stepsParts steps = writtenParts more := by
  induction h generalizing offset with
  | nil => exact ⟨[], rfl, rfl⟩
  | @cons s step more as bs cs hs hstep hmore ih =>
      obtain ⟨t, hread, hparts⟩ :=
        takes_step hstep (hmore.endsStep_append hrest) (offset + Text.utf8Length as)
      obtain ⟨steps, hsteps, hmoreParts⟩ :=
        ih (offset + Text.utf8Length as + Text.utf8Length bs)
      refine ⟨(s, t) :: steps, ?_, ?_⟩
      · rw [List.append_assoc, List.append_assoc,
          moreSteps_cons hs hstep offset hread, hsteps]
        simp only [Text.utf8Length_append, Nat.add_assoc, List.cons_append]
      · show (s, t.parts) :: stepsParts steps = _
        rw [hparts, hmoreParts]
        rfl

/-- A leading separator is read, and no other takes the place of one that was left out. -/
theorem leading_append {lead? : Option Separator} {front ls : List Char} (hfront : IsBlank front)
    (hlead : LeadingSpelledBy lead? ls) (hrest : FollowsSeparator rest) (offset : Nat) :
    leading (⟨offset, front ++ (ls ++ rest)⟩ : Rest).skipBlanks
      = (lead?, ⟨offset + Text.utf8Length (front ++ ls), rest⟩) := by
  cases hlead with
  | none =>
      rw [List.nil_append, List.append_nil, skipBlanks_append hfront hrest.blank, leading,
        separator?_eq_none hrest.slash hrest.blank]
  | @some s _ h =>
      cases h with
      | @mk front' behind hfront' hbehind =>
          have hmark : ∀ c ∈ (s.mark ++ behind ++ rest).head?, Text.isWhitespace c = false := by
            cases s with
            | child =>
                rintro c ⟨⟩
                exact isWhitespace_mark _ (by decide)
            | deep =>
                rintro c ⟨⟩
                exact isWhitespace_mark _ (by decide)
          have hspelled : s.SpelledBy (s.mark ++ behind) := .mk isBlank_nil hbehind
          have htext : front ++ (front' ++ (s.mark ++ behind) ++ rest)
              = front ++ front' ++ (s.mark ++ behind ++ rest) := by
            simp only [List.append_assoc]
          obtain ⟨_, hread, rfl⟩ := takes_separator hspelled hrest
            (offset + Text.utf8Length (front ++ front'))
          rw [htext, skipBlanks_append (isBlank_append hfront hfront') hmark, leading, hread]
          simp only [Text.utf8Length_append, Nat.add_assoc]

/-- What is read of a path, apart from places. -/
def parts (s : Surface) : Option Separator × List (Separator × AxisPart × Test × List Nat) :=
  (s.leading?, stepsParts s.steps)

/-- What is to be read of a path that is written. -/
def Written.parts (w : Written) :
    Option Separator × List (Separator × AxisPart × Test × List Nat) :=
  (w.leading?, writtenParts w.steps)

/-- White space behind a separator is part of it, as is white space that is all there is. -/
theorem LeadingSpelledBy.exists_append {lead? : Option Separator} {front ls behind : List Char}
    (hfront : IsBlank front) (h : LeadingSpelledBy lead? ls) (hbehind : IsBlank behind) :
    ∃ front' ls', IsBlank front' ∧ LeadingSpelledBy lead? ls'
      ∧ front ++ (ls ++ behind) = front' ++ ls' := by
  cases h with
  | none => exact ⟨front ++ behind, [], isBlank_append hfront hbehind, .none, by simp⟩
  | @some s _ h =>
      cases h with
      | @mk front' behind' hfront' hbehind' =>
          refine ⟨front, front' ++ (s.mark ++ (behind' ++ behind)), hfront, ?_, by simp⟩
          exact .some (.mk hfront' (isBlank_append hbehind' hbehind))

/-- A text with steps is read as the first of them and what is read behind that. -/
theorem ofText?_of_first {lead? : Option Separator} {first : WrittenStep}
    {more : List (Separator × WrittenStep)} {front ls cs ms behind : List Char}
    (hfront : IsBlank front) (hlead : LeadingSpelledBy lead? ls) (hfirst : first.SpelledBy cs)
    (hmore : MoreSpelledBy more ms) (hbehind : IsBlank behind) {step : Step} {after : Rest}
    (hread : step? ⟨0 + Text.utf8Length (front ++ ls), cs ++ (ms ++ behind)⟩
      = some (step, after)) :
    ofText? (String.ofList (front ++ (ls ++ (cs ++ (ms ++ behind)))))
      = some ⟨lead?, (lead?.getD .child, step) :: (moreSteps after).1⟩ := by
  obtain ⟨_, hstep, -⟩ := takes_step hfirst (hmore.endsStep_append hbehind.endsStep)
    (0 + Text.utf8Length (front ++ ls))
  rw [hstep] at hread
  cases hread
  obtain ⟨steps, hsteps, -⟩ := moreSteps_append hmore hbehind.endsStep
    (0 + Text.utf8Length (front ++ ls) + Text.utf8Length cs)
  rw [moreSteps_of_none (separator?_of_isBlank hbehind _)] at hsteps
  have hpath := path?_of_step
    (leading_append hfront hlead (hfirst.followsSeparator (ms ++ behind)) 0) hstep
  rw [hsteps] at hpath ⊢
  exact ofText?_of_path? hpath hbehind

/-- A text that the grammar derives is read as what it is derived for. -/
theorem exists_ofText?_of_spelledBy {w : Written} {cs : List Char} (h : w.SpelledBy cs) :
    ∃ surface, ofText? (String.ofList cs) = some surface ∧ surface.parts = w.parts := by
  cases h with
  | @bare lead? front ls behind hdeep hfront hlead hbehind =>
      obtain ⟨front', ls', hfront', hlead', htext⟩ := hlead.exists_append hfront hbehind
      have hread := leading_append hfront' hlead' followsSeparator_nil 0
      rw [List.append_nil, ← htext] at hread
      exact ⟨⟨lead?, []⟩, ofText?_of_path? (path?_of_bare hread rfl hdeep) isBlank_nil, rfl⟩
  | @steps lead? first more front ls cs ms behind hfront hlead hfirst hmore hbehind =>
      obtain ⟨step, hstep, hparts⟩ :=
        takes_step hfirst (hmore.endsStep_append hbehind.endsStep)
          (0 + Text.utf8Length (front ++ ls))
      obtain ⟨steps, hsteps, hmoreParts⟩ := moreSteps_append hmore hbehind.endsStep
        (0 + Text.utf8Length (front ++ ls) + Text.utf8Length cs)
      rw [moreSteps_of_none (separator?_of_isBlank hbehind _), List.append_nil] at hsteps
      refine ⟨_, ofText?_of_first hfront hlead hfirst hmore hbehind hstep, ?_⟩
      show (lead?, (lead?.getD .child, step.parts) :: stepsParts (moreSteps _).1) = _
      rw [hsteps, hparts, hmoreParts]
      rfl

end Surface

end JsonAxes
