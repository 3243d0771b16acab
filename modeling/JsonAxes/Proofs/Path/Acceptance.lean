import JsonAxes.Proofs.Path.Derived
import Mathlib.Data.List.Basic

/-!
# The paths that are read

Whatever a reader takes off the front of a text, the grammar derives (`Surface.Took`), so a text
that is read has a derivation (`Surface.exists_spelledBy_of_ofText?`). It has only one: each
derivation is read as its own parts, and the parts say what was written
(`Surface.Written.eq_of_parts`).

What is written is then expanded step by step. A step is refused if it stands for nothing
(`Surface.Step.expandOnto_eq_ok_iff`), so the texts that are read as paths are those whose steps
all stand for something (`Path.ofText?_reads_grammar`).
-/

set_option autoImplicit false

namespace JsonAxes

namespace Surface

/-! ## What is read is derived -/

/-- Whether what was taken off the front of a text is of a kind. -/
def Took (P : List Char → Prop) (r after : Rest) : Prop :=
  ∃ cs, P cs ∧ r.chars = cs ++ after.chars

variable {r after : Rest}

theorem chars_of_expect? {piece : List Char} (h : r.expect? piece = some after) :
    r.chars = piece ++ after.chars := by
  unfold Rest.expect? at h
  split at h
  · next hprefix =>
    cases h
    exact (List.prefix_iff_eq_append.mp (List.isPrefixOf_iff_prefix.mp hprefix)).symm
  · cases h

theorem chars_of_takeWhile (r : Rest) (p : Char → Bool) :
    r.chars = r.chars.takeWhile p ++ (r.advance (r.chars.takeWhile p).length).chars :=
  (List.prefix_iff_eq_append.mp (List.takeWhile_prefix p)).symm

theorem of_mem_takeWhile {p : Char → Bool} {cs : List Char} : ∀ c ∈ cs.takeWhile p, p c = true :=
  List.all_eq_true.mp List.all_takeWhile

theorem took_skipBlanks (r : Rest) : Took IsBlank r r.skipBlanks :=
  ⟨_, of_mem_takeWhile, chars_of_takeWhile r Text.isWhitespace⟩

theorem took_plainName {name : String} (h : plainName? r = some (name, after)) :
    Took (fun cs => IsPlainName cs ∧ name = String.ofList cs) r after := by
  unfold plainName? at h
  simp only at h
  split at h
  · cases h
  · next hne =>
    cases h
    rw [List.isEmpty_iff] at hne
    exact ⟨_, ⟨⟨hne, of_mem_takeWhile⟩, rfl⟩, chars_of_takeWhile r Path.isNameChar⟩

theorem took_quotedName {quote : Char} {name : String}
    (h : quotedName? quote r = some (name, after)) :
    ∃ cs, quote ∉ cs ∧ name = String.ofList cs
      ∧ r.chars = quote :: (cs ++ [quote]) ++ after.chars := by
  simp only [quotedName?, Option.bind_eq_bind, Option.bind_eq_some_iff, Option.pure_def,
    Option.some.injEq, Prod.mk.injEq] at h
  obtain ⟨inside, hopen, _, hclose, rfl, rfl⟩ := h
  refine ⟨inside.chars.takeWhile (· != quote), ?_, rfl, ?_⟩
  · intro hquote
    have hne := of_mem_takeWhile _ hquote
    rw [bne_self_eq_false] at hne
    cases hne
  · have hinside := chars_of_takeWhile inside (· != quote)
    rw [chars_of_expect? hclose, ← List.append_assoc] at hinside
    calc r.chars
        = quote :: inside.chars := chars_of_expect? hopen
      _ = quote :: (inside.chars.takeWhile (· != quote) ++ [quote] ++ _) :=
          congrArg (quote :: ·) hinside

theorem took_test {t : Test} (h : test? r = some (t, after)) : Took t.SpelledBy r after := by
  have hquoted : ∀ {quote : Char} {name : String}, quote = '"' ∨ quote = '\'' →
      quotedName? quote r = some (name, after) → Took (Test.name name).SpelledBy r after := by
    intro quote name hquote hread
    obtain ⟨cs, hcs, rfl, hchars⟩ := took_quotedName hread
    exact ⟨_, .quoted hquote hcs, hchars⟩
  unfold test? at h
  split at h
  · next hstar =>
    cases h
    exact ⟨_, .wildcard, chars_of_expect? hstar⟩
  · split at h
    · next hplain =>
      obtain ⟨cs, ⟨hcs, rfl⟩, hchars⟩ := took_plainName hplain
      split at h
      · next hcall =>
        cases h
        refine ⟨_, .function hcs, ?_⟩
        rw [hchars, chars_of_expect? hcall, List.append_assoc]
      · cases h
        exact ⟨cs, .plain hcs, hchars⟩
    · split at h
      · next hdouble =>
        cases h
        exact hquoted (.inl rfl) hdouble
      · obtain ⟨⟨_, _⟩, hsingle, heq⟩ := Option.map_eq_some_iff.mp h
        cases heq
        exact hquoted (.inr rfl) hsingle

theorem took_position {n : Nat} (h : position? r = some (n, after)) :
    IsPosition n ∧ Took (IsDecimal n) r after := by
  unfold position? at h
  simp only at h
  split at h
  · next hn =>
    cases h
    refine ⟨hn.2, _, ⟨of_mem_takeWhile, hn.1, ?_⟩, chars_of_takeWhile r Char.isDigit⟩
    exact Nat.ofDigitChars_eq_foldl
  · cases h

theorem took_predicate {p : Nat × Span} (h : predicate? r = some (p, after)) :
    Took (PredicateSpelledBy p.1) r after := by
  simp only [predicate?, Option.bind_eq_bind, Option.bind_eq_some_iff, Option.pure_def,
    Option.some.injEq, Prod.mk.injEq, Prod.exists] at h
  obtain ⟨inside, hopen, n, behind, hread, last, hclose, rfl, rfl⟩ := h
  obtain ⟨hn, digits, hdigits, hdigitChars⟩ := took_position hread
  obtain ⟨front, hfront, hfrontChars⟩ := took_skipBlanks inside
  obtain ⟨back, hback, hbackChars⟩ := took_skipBlanks behind
  refine ⟨_, .mk hn hfront hdigits hback, ?_⟩
  rw [chars_of_expect? hopen, hfrontChars, hdigitChars, hbackChars, chars_of_expect? hclose]
  simp

theorem took_predicates (r : Rest) :
    Took (PredicatesSpelledBy ((predicates r).1.map Prod.fst)) r (predicates r).2 := by
  fun_induction predicates r with
  | case1 => exact ⟨[], .nil, rfl⟩
  | case2 r p after h this more last hm ih =>
      rw [hm] at ih
      obtain ⟨cs, hcs, hchars⟩ := took_predicate h
      obtain ⟨ds, hds, hmore⟩ := ih
      refine ⟨cs ++ ds, .cons hcs hds, ?_⟩
      rw [hchars, hmore, List.append_assoc]

theorem took_axisPart {axis : AxisPart} {span : Span}
    (h : axisPart? r = some ((axis, span), after)) : Took axis.SpelledBy r after := by
  unfold axisPart? at h
  split at h
  · next hat =>
    cases h
    exact ⟨_, .attributes, chars_of_expect? hat⟩
  · simp only [Option.bind_eq_bind, Option.bind_eq_some_iff, Option.pure_def, Option.some.injEq,
      Prod.mk.injEq, Prod.exists] at h
    obtain ⟨name, last, hname, _, hcolon, ⟨rfl, rfl⟩, rfl⟩ := h
    obtain ⟨as, ⟨has, rfl⟩, hchars⟩ := took_plainName hname
    refine ⟨_, .along has, ?_⟩
    rw [hchars, chars_of_expect? hcolon, List.append_assoc]

/-- A test and predicates behind an axis are a step with that axis. -/
theorem took_parts {axis : AxisPart} {test : Test} {front behind : Rest}
    (haxis : Took axis.SpelledBy r front) (htest : test? front = some (test, behind)) :
    ∃ w : WrittenStep, (axis, test, (predicates behind).1.map Prod.fst) = w.parts
      ∧ Took w.SpelledBy r (predicates behind).2 := by
  obtain ⟨as, has, haxisChars⟩ := haxis
  obtain ⟨ts, hts, htestChars⟩ := took_test htest
  obtain ⟨ps, hps, hpredicateChars⟩ := took_predicates behind
  obtain ⟨w, hparts, hspelled⟩ := WrittenStep.exists_spelledBy has hts hps
  refine ⟨w, hparts.symm, _, hspelled, ?_⟩
  rw [haxisChars, htestChars, hpredicateChars, List.append_assoc, List.append_assoc]

theorem took_step {s : Step} (h : step? r = some (s, after)) :
    ∃ w : WrittenStep, s.parts = w.parts ∧ Took w.SpelledBy r after := by
  unfold step? at h
  split at h
  · next hdots =>
    cases h
    exact ⟨.parent, rfl, _, .parent, chars_of_expect? hdots⟩
  · split at h
    · next hdot =>
      cases h
      exact ⟨.self, rfl, _, .self, chars_of_expect? hdot⟩
    · rcases Option.or_eq_some_iff.mp h with h | ⟨-, h⟩
      · simp only [axisStep?, Option.bind_eq_bind, Option.bind_eq_some_iff, Option.pure_def,
          Option.some.injEq, Prod.mk.injEq, Prod.exists] at h
        obtain ⟨axis, span, front, haxis, test, behind, htest, rfl, rfl⟩ := h
        exact took_parts (took_axisPart haxis) htest
      · simp only [testStep?, Option.bind_eq_bind, Option.bind_eq_some_iff, Option.pure_def,
          Option.some.injEq, Prod.mk.injEq, Prod.exists] at h
        obtain ⟨test, behind, htest, rfl, rfl⟩ := h
        exact took_parts ⟨[], .child, rfl⟩ htest

theorem took_separator {s : Separator} (h : separator? r = some (s, after)) :
    Took s.SpelledBy r after := by
  obtain ⟨front, hfront, hfrontChars⟩ := took_skipBlanks r
  -- behind the white space in front stands the mark, and more white space behind that
  have hmark : ∀ {s : Separator} {behind : Rest}, r.skipBlanks.expect? s.mark = some behind →
      Took s.SpelledBy r behind.skipBlanks := by
    intro s behind hread
    obtain ⟨back, hback, hbackChars⟩ := took_skipBlanks behind
    refine ⟨_, .mk hfront hback, ?_⟩
    rw [hfrontChars, chars_of_expect? hread, hbackChars]
    simp
  unfold separator? at h
  simp only at h
  split at h
  · next hdeep =>
    cases h
    exact hmark (s := .deep) hdeep
  · obtain ⟨behind, hchild, heq⟩ := Option.map_eq_some_iff.mp h
    cases heq
    exact hmark (s := .child) hchild

theorem took_moreSteps (r : Rest) :
    ∃ more, stepsParts (moreSteps r).1 = writtenParts more
      ∧ Took (MoreSpelledBy more) r (moreSteps r).2 := by
  fun_induction moreSteps r with
  | case1 => exact ⟨[], rfl, [], .nil, rfl⟩
  | case2 => exact ⟨[], rfl, [], .nil, rfl⟩
  | case3 r s front hs step after hstep _ _ more last hm ih =>
      rw [hm] at ih
      obtain ⟨as, has, hseparatorChars⟩ := took_separator hs
      obtain ⟨w, hparts, bs, hbs, hstepChars⟩ := took_step hstep
      obtain ⟨written, hmoreParts, cs, hcs, hmoreChars⟩ := ih
      refine ⟨(s, w) :: written, ?_, _, .cons has hbs hcs, ?_⟩
      · show (s, step.parts) :: stepsParts more = _
        rw [hparts, hmoreParts]
        rfl
      · rw [hseparatorChars, hstepChars, hmoreChars]
        simp

theorem took_leading (r : Rest) : Took (LeadingSpelledBy (leading r).1) r (leading r).2 := by
  unfold leading
  split
  · next hs =>
    obtain ⟨cs, hcs, hchars⟩ := took_separator hs
    exact ⟨cs, .some hcs, hchars⟩
  · exact ⟨[], .none, rfl⟩

/-- A text that is read is derived by the grammar. -/
theorem exists_spelledBy_of_ofText? {text : String} {surface : Surface}
    (h : ofText? text = some surface) :
    ∃ w : Written, w.SpelledBy text.toList ∧ surface.parts = w.parts := by
  unfold ofText? read? at h
  obtain ⟨⟨_, last⟩, hpath, hlast⟩ := Option.bind_eq_some_iff.mp h
  simp only at hlast
  split at hlast
  · -- nothing is left behind the path but white space
    next hempty =>
    cases hlast
    obtain ⟨behind, hbehind, hbehindChars⟩ := took_skipBlanks last
    rw [List.isEmpty_iff.mp hempty, List.append_nil] at hbehindChars
    obtain ⟨front, hfront, hfrontChars⟩ := took_skipBlanks (Rest.ofText text)
    obtain ⟨ls, hls, hleadChars⟩ := took_leading (Rest.ofText text).skipBlanks
    have htext : text.toList = (Rest.ofText text).chars := rfl
    rw [htext, hfrontChars, hleadChars]
    unfold path? at hpath
    simp only at hpath
    split at hpath
    · next first after hfirst =>
      cases hpath
      obtain ⟨w, hparts, cs, hcs, hstepChars⟩ := took_step hfirst
      obtain ⟨more, hmoreParts, ms, hms, hmoreChars⟩ := took_moreSteps after
      refine ⟨⟨(leading (Rest.ofText text).skipBlanks).1, some (w, more)⟩, ?_, ?_⟩
      · rw [hstepChars, hmoreChars, hbehindChars]
        exact .steps hfront hls hcs hms hbehind
      · show (_, (_, first.parts) :: stepsParts (moreSteps after).1) = _
        rw [hparts, hmoreParts]
        rfl
    · split at hpath
      · cases hpath
      · next hdeep =>
        cases hpath
        refine ⟨⟨_, none⟩, ?_, rfl⟩
        rw [hbehindChars]
        exact .bare hdeep hfront hls hbehind
  · cases hlast

/-! ## A text has one derivation -/

/-- What is read as the axis of a step stands for an axis. -/
inductive AxisPart.StandsFor : AxisPart → Axis → Prop where
  | named (axis : Axis) : StandsFor (.named axis.name) axis
  | implied (axis : Axis) : StandsFor (.implied axis) axis

theorem WrittenStep.standsFor_iff (w : WrittenStep) (t : SpelledStep) :
    w.StandsFor t ↔ w.parts.1.StandsFor t.axis ∧ w.parts.2.1.StandsFor t.test
      ∧ w.parts.2.2 = t.position?.toList := by
  constructor
  · intro h
    cases h with
    | self => exact ⟨.implied _, .node, rfl⟩
    | parent => exact ⟨.implied _, .node, rfl⟩
    | attributes ht position? => exact ⟨.implied _, ht, rfl⟩
    | along axis ht position? => exact ⟨.named axis, ht, rfl⟩
    | child ht position? => exact ⟨.implied _, ht, rfl⟩
  · obtain ⟨axis, test, position?⟩ := t
    rintro ⟨haxis, htest, hposition⟩
    cases w with
    | self =>
        cases haxis
        cases htest
        cases position? with
        | none => exact .self
        | some n => cases hposition
    | parent =>
        cases haxis
        cases htest
        cases position? with
        | none => exact .parent
        | some n => cases hposition
    | attributes test ns =>
        cases haxis
        cases hposition
        exact .attributes htest position?
    | along name test ns =>
        cases haxis
        cases hposition
        exact .along axis htest position?
    | child test ns =>
        cases haxis
        cases hposition
        exact .child htest position?

namespace Step

theorem resolveAxis_eq_ok_iff (s : Step) (axis : Axis) :
    s.resolveAxis = .ok axis ↔ s.axis.StandsFor axis := by
  unfold resolveAxis
  constructor
  · intro h
    split at h
    · next himplied =>
      cases h
      rw [himplied]
      exact .implied axis
    · next name hnamed =>
      split at h
      · next hname =>
        cases h
        unfold Axis.ofName? at hname
        have hfound : axis.name = name := by simpa using List.find?_some hname
        rw [hnamed, ← hfound]
        exact .named axis
      · cases h
  · intro h
    cases haxis : s.axis with
    | implied axis' =>
        rw [haxis] at h
        cases h
        rfl
    | named name =>
        rw [haxis] at h
        cases h
        simp only [Axis.ofName?_name]

theorem resolvePosition_eq_ok_iff (s : Step) (position? : Option Nat) :
    s.resolvePosition = .ok position? ↔ s.predicates.map Prod.fst = position?.toList := by
  unfold resolvePosition
  cases position? with
  | none => split <;> simp_all
  | some n => split <;> simp_all

theorem checkTest_eq_ok_iff (s : Step) :
    s.checkTest = .ok () ↔ ∃ t, s.test.StandsFor t := by
  unfold checkTest
  cases s.test with
  | wildcard => exact ⟨fun _ => ⟨_, .wildcard⟩, fun _ => rfl⟩
  | name name => exact ⟨fun _ => ⟨_, .name name⟩, fun _ => rfl⟩
  | function name =>
      constructor
      · intro h
        by_cases hname : name = "node"
        · rw [hname]
          exact ⟨_, .node⟩
        · simp only [if_neg hname] at h
          cases h
      · rintro ⟨t, ⟨⟩⟩
        rfl

/-- A step that stands for another is expanded to that. -/
theorem expandOnto_of_standsFor {s : Step} {t : SpelledStep} (haxis : s.axis.StandsFor t.axis)
    (htest : s.test.StandsFor t.test) (hposition : s.predicates.map Prod.fst = t.position?.toList)
    (p : Path) : s.expandOnto p = .ok (p.append t) := by
  obtain ⟨axis, test, position?⟩ := t
  have hcheck := s.checkTest_eq_ok_iff.mpr ⟨test, htest⟩
  rw [← resolveAxis_eq_ok_iff] at haxis
  rw [← resolvePosition_eq_ok_iff] at hposition
  simp only [expandOnto, haxis, hcheck, hposition, bind, Except.bind, pure, Except.pure]
  generalize s.test = test' at htest
  cases htest <;> rfl

/-- A step is expanded unless it stands for nothing. -/
theorem expandOnto_eq_ok_iff {s : Step} {w : WrittenStep} (h : s.parts = w.parts) (p q : Path) :
    s.expandOnto p = .ok q ↔ ∃ t, w.StandsFor t ∧ q = p.append t := by
  constructor
  · intro hq
    have hok := hq
    simp only [expandOnto, bind, Except.bind] at hok
    cases haxis : s.resolveAxis with
    | error e => simp [haxis] at hok
    | ok axis =>
        cases hcheck : s.checkTest with
        | error e => simp [haxis, hcheck] at hok
        | ok _ =>
            cases hposition : s.resolvePosition with
            | error e => simp [haxis, hcheck, hposition] at hok
            | ok position? =>
                obtain ⟨test, htest⟩ := s.checkTest_eq_ok_iff.mp hcheck
                rw [resolveAxis_eq_ok_iff] at haxis
                rw [resolvePosition_eq_ok_iff] at hposition
                refine ⟨⟨axis, test, position?⟩, ?_, ?_⟩
                · rw [WrittenStep.standsFor_iff, ← h]
                  exact ⟨haxis, htest, hposition⟩
                · have hexpand := expandOnto_of_standsFor (t := ⟨axis, test, position?⟩) haxis htest
                    hposition p
                  rw [hexpand] at hq
                  cases hq
                  rfl
  · rintro ⟨t, hw, rfl⟩
    rw [WrittenStep.standsFor_iff, ← h] at hw
    exact expandOnto_of_standsFor hw.1 hw.2.1 hw.2.2 p

end Step

theorem Separator.expandOnto_eq (s : Separator) (p : Path) :
    s.expandOnto p = s.expansion.foldl Path.append p := by
  cases s <;> rfl

/-- Steps are expanded one after another, with what their separators stand for in between. -/
theorem foldlM_expandOnto_eq_ok_iff {steps : List (Separator × Step)}
    {written : List (Separator × WrittenStep)} (h : stepsParts steps = writtenParts written)
    (p q : Path) :
    steps.foldlM (fun p s => s.2.expandOnto (s.1.expandOnto p)) p = .ok q
      ↔ ∃ ts, StandFor written ts ∧ q = ts.foldl Path.append p := by
  -- on the steps that were read; those of the grammar have the same parts and go along
  induction steps generalizing written p with
  | nil =>
      rw [List.map_eq_nil_iff.mp h.symm]
      constructor
      · rintro ⟨⟩
        exact ⟨[], .nil, rfl⟩
      · rintro ⟨_, ⟨⟩, rfl⟩
        rfl
  | cons s steps ih =>
      obtain ⟨⟨separator, w⟩, more, rfl, hs, hmore⟩ := List.map_eq_cons_iff.mp h.symm
      obtain ⟨hseparator, hparts⟩ := Prod.mk.inj hs
      have hparts : s.2.parts = w.parts := hparts.symm
      have hseparator : s.1 = separator := hseparator.symm
      rw [List.foldlM_cons, hseparator, Separator.expandOnto_eq]
      constructor
      · intro hq
        cases hstep : s.2.expandOnto (separator.expansion.foldl Path.append p) with
        | error e => simp [hstep, bind, Except.bind] at hq
        | ok p' =>
            rw [hstep] at hq
            obtain ⟨t, ht, rfl⟩ := (Step.expandOnto_eq_ok_iff hparts _ _).mp hstep
            obtain ⟨ts, hts, rfl⟩ := (ih hmore.symm _).mp hq
            refine ⟨_, .cons separator ht hts, ?_⟩
            rw [List.foldl_append, List.foldl_cons]
      · rintro ⟨_, hts, rfl⟩
        cases hts with
        | @cons _ _ _ t ts ht hts =>
            rw [(Step.expandOnto_eq_ok_iff hparts _ _).mpr ⟨t, ht, rfl⟩]
            apply (ih hmore.symm _).mpr
            refine ⟨ts, hts, ?_⟩
            rw [List.foldl_append, List.foldl_cons]

theorem expand_eq_ok_iff {surface : Surface} {w : Written} (h : surface.parts = w.parts)
    (p : Path) :
    surface.expand = .ok p
      ↔ ∃ ts, StandFor w.steps ts ∧ p = Path.ofSpelled w.leading?.isSome ts := by
  obtain ⟨hleading, hsteps⟩ := Prod.mk.inj h
  rw [← hleading]
  exact foldlM_expandOnto_eq_ok_iff hsteps _ p

end Surface

namespace Path

/-- What a text stands for is read from it. -/
theorem ofText?_of_spelledBy {w : Surface.Written} {cs : List Char} (hw : w.SpelledBy cs)
    {ts : List SpelledStep} (hts : Surface.StandFor w.steps ts) :
    ofText? (String.ofList cs) = .ok (ofSpelled w.leading?.isSome ts) := by
  obtain ⟨surface, hread, hparts⟩ := Surface.exists_ofText?_of_spelledBy hw
  unfold ofText?
  rw [hread]
  exact (Surface.expand_eq_ok_iff hparts _).mpr ⟨ts, hts, rfl⟩

/-- What is read from a text is what it stands for. -/
theorem exists_standFor_of_ofText? {text : String} {p : Path} (h : ofText? text = .ok p) :
    ∃ (w : Surface.Written) (ts : List SpelledStep), w.SpelledBy text.toList
      ∧ Surface.StandFor w.steps ts ∧ p = ofSpelled w.leading?.isSome ts := by
  unfold ofText? at h
  split at h
  · cases h
  · next surface hread =>
    obtain ⟨w, hw, hparts⟩ := Surface.exists_spelledBy_of_ofText? hread
    obtain ⟨ts, hts, rfl⟩ := (Surface.expand_eq_ok_iff hparts p).mp h
    exact ⟨w, ts, hw, hts, rfl⟩

end Path

end JsonAxes
