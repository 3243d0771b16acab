import JsonAxes.Cli.Report
import JsonAxes.Proofs.Path.Acceptance

/-!
# What is to blame for a path that is not read

A text that the grammar derives is read as a path unless one of its steps stands for nothing. The
first such step is to blame (`Surface.Written.Blames`), and within it the first part that stands for
nothing: the name of its axis, the call that is its test, or its second predicate
(`Surface.WrittenStep.Blames`). A text is divided into the piece that is to blame, what stands in
front of it and what stands behind it.

The error says what is wrong, and its span covers the piece, neither more nor less, whether it is
counted in bytes or in characters (`Path.ofText?_blames`). Where the text has not the form of a path
at all, nothing in it is to blame.
-/

set_option autoImplicit false

namespace JsonAxes

namespace Surface

/-! ## Pieces that are to blame -/

/-- What is wrong with a step that stands for nothing. -/
inductive Fault where
  /-- The name of its axis. -/
  | axis
  /-- The function that is its test. -/
  | test
  /-- Its second predicate. -/
  | predicate
  deriving DecidableEq, Repr

/-- The error of a fault, which quotes the piece of text that is to blame. -/
def Fault.error (piece : String) (span : Span) : Fault → PathError
  | .axis => .unknownAxis piece span (Text.bestMatch? suggestionLimit piece Axis.names)
  | .test => .unsupportedTest piece span
  | .predicate => .extraPredicate span

/-- What is to blame for a step: the piece of its text between what stands before it and behind it.
The axis is looked at first, then the test, and the predicates last. -/
inductive WrittenStep.Blames (w : WrittenStep) :
    (before piece behind : List Char) → (fault : Fault) → Prop where
  /-- There is no axis of this name. -/
  | axis {name ts ps : List Char} {test : Test} {ns : List Nat}
      (hw : w.parts = (.named (String.ofList name), test, ns)) (hname : IsPlainName name)
      (hnone : ∀ a : Axis, a.name ≠ String.ofList name) (ht : test.SpelledBy ts)
      (hp : PredicatesSpelledBy ns ps) :
      Blames w [] name ([':', ':'] ++ (ts ++ ps)) .axis
  /-- There is such an axis, but no such function. -/
  | test {axis : AxisPart} {a : Axis} {as name ps : List Char} {ns : List Nat}
      (hw : w.parts = (axis, .function (String.ofList name), ns)) (ha : axis.SpelledBy as)
      (haxis : axis.StandsFor a) (hname : IsPlainName name)
      (hother : String.ofList name ≠ "node") (hp : PredicatesSpelledBy ns ps) :
      Blames w as (name ++ ['(', ')']) ps .test
  /-- The axis and the test stand for something, but there is a predicate behind the first one. -/
  | predicate {axis : AxisPart} {a : Axis} {test : Test} {t : SpelledTest} {n m : Nat}
      {ns : List Nat} {as ts cs ds ps : List Char} (hw : w.parts = (axis, test, n :: m :: ns))
      (ha : axis.SpelledBy as) (haxis : axis.StandsFor a) (ht : test.SpelledBy ts)
      (htest : test.StandsFor t) (hfirst : PredicateSpelledBy n cs)
      (hextra : PredicateSpelledBy m ds) (hp : PredicatesSpelledBy ns ps) :
      Blames w (as ++ (ts ++ cs)) ds ps .predicate

/-- What is to blame for steps, each behind its separator: the steps in front of the one that is
stand for something. -/
inductive MoreBlames : List (Separator × WrittenStep) →
    (before piece behind : List Char) → (fault : Fault) → Prop where
  | here {s : Separator} {w : WrittenStep} {more : List (Separator × WrittenStep)}
      {ss before piece behind ms : List Char} {fault : Fault} (hs : s.SpelledBy ss)
      (hw : w.Blames before piece behind fault) (hmore : MoreSpelledBy more ms) :
      MoreBlames ((s, w) :: more) (ss ++ before) piece (behind ++ ms) fault
  | there {s : Separator} {w : WrittenStep} {t : SpelledStep}
      {more : List (Separator × WrittenStep)} {ss ws before piece behind : List Char}
      {fault : Fault} (hs : s.SpelledBy ss) (hw : w.SpelledBy ws) (hstands : w.StandsFor t)
      (hmore : MoreBlames more before piece behind fault) :
      MoreBlames ((s, w) :: more) (ss ++ (ws ++ before)) piece behind fault

/-- What is to blame for a path: its first step, or if that stands for something, what is to blame
for the steps behind it. -/
inductive Written.Blames : Written →
    (before piece behind : List Char) → (fault : Fault) → Prop where
  | first {lead? : Option Separator} {w : WrittenStep} {more : List (Separator × WrittenStep)}
      {front ls before piece behind ms back : List Char} {fault : Fault} (hfront : IsBlank front)
      (hlead : LeadingSpelledBy lead? ls) (hw : w.Blames before piece behind fault)
      (hmore : MoreSpelledBy more ms) (hback : IsBlank back) :
      Blames ⟨lead?, some (w, more)⟩ (front ++ (ls ++ before)) piece (behind ++ (ms ++ back)) fault
  | more {lead? : Option Separator} {w : WrittenStep} {t : SpelledStep}
      {more : List (Separator × WrittenStep)} {front ls ws before piece behind back : List Char}
      {fault : Fault} (hfront : IsBlank front) (hlead : LeadingSpelledBy lead? ls)
      (hw : w.SpelledBy ws) (hstands : w.StandsFor t)
      (hmore : MoreBlames more before piece behind fault) (hback : IsBlank back) :
      Blames ⟨lead?, some (w, more)⟩ (front ++ (ls ++ (ws ++ before))) piece (behind ++ back) fault

/-! ## What is to blame lies in a text of the grammar -/

/-- The texts of a step with an axis, a test and predicates. -/
theorem WrittenStep.spelledBy_of_parts {w : WrittenStep} {axis : AxisPart} {test : Test}
    {ns : List Nat} {as ts ps : List Char} (hw : w.parts = (axis, test, ns))
    (ha : axis.SpelledBy as) (ht : test.SpelledBy ts) (hp : PredicatesSpelledBy ns ps) :
    w.SpelledBy (as ++ (ts ++ ps)) := by
  obtain ⟨w', hw', hspelled⟩ := exists_spelledBy ha ht hp
  rwa [parts_injective (hw.trans hw'.symm)]

theorem WrittenStep.Blames.spelledBy {w : WrittenStep} {before piece behind : List Char}
    {fault : Fault} (h : w.Blames before piece behind fault) :
    w.SpelledBy (before ++ (piece ++ behind)) := by
  cases h with
  | axis hw hname _ ht hp =>
      have hspelled := spelledBy_of_parts hw (.along hname) ht hp
      rwa [List.append_assoc] at hspelled
  | test hw ha _ hname _ hp => exact spelledBy_of_parts hw ha (.function hname) hp
  | predicate hw ha _ ht _ hfirst hextra hp =>
      have hspelled := spelledBy_of_parts hw ha ht (.cons hfirst (.cons hextra hp))
      simpa only [List.append_assoc] using hspelled

theorem MoreBlames.spelledBy {more : List (Separator × WrittenStep)}
    {before piece behind : List Char} {fault : Fault}
    (h : MoreBlames more before piece behind fault) :
    MoreSpelledBy more (before ++ (piece ++ behind)) := by
  induction h with
  | here hs hw hmore =>
      have hspelled := MoreSpelledBy.cons hs hw.spelledBy hmore
      simpa only [List.append_assoc] using hspelled
  | there hs hw _ _ ih =>
      have hspelled := MoreSpelledBy.cons hs hw ih
      simpa only [List.append_assoc] using hspelled

/-! ## Something is to blame -/

theorem AxisPart.SpelledBy.standsFor_or {axis : AxisPart} {as : List Char}
    (h : axis.SpelledBy as) :
    (∃ a, axis.StandsFor a) ∨ ∃ name, IsPlainName name ∧ as = name ++ [':', ':']
      ∧ axis = .named (String.ofList name) ∧ ∀ a : Axis, a.name ≠ String.ofList name := by
  cases h with
  | attributes => exact .inl ⟨_, .implied _⟩
  | @along name hname =>
      by_cases hnone : ∀ a : Axis, a.name ≠ String.ofList name
      · exact .inr ⟨name, hname, rfl, rfl, hnone⟩
      · obtain ⟨a, ha⟩ := not_forall_not.mp hnone
        exact .inl ⟨a, ha ▸ .named a⟩
  | child => exact .inl ⟨_, .implied _⟩

theorem Test.SpelledBy.standsFor_or {test : Test} {ts : List Char} (h : test.SpelledBy ts) :
    (∃ t, test.StandsFor t) ∨ ∃ name, IsPlainName name ∧ ts = name ++ ['(', ')']
      ∧ test = .function (String.ofList name) ∧ String.ofList name ≠ "node" := by
  cases h with
  | wildcard => exact .inl ⟨_, .wildcard⟩
  | @function name hname =>
      by_cases hnode : String.ofList name = "node"
      · exact .inl ⟨.node, hnode ▸ .node⟩
      · exact .inr ⟨name, hname, rfl, rfl, hnode⟩
  | plain _ => exact .inl ⟨_, .name _⟩
  | quoted _ _ => exact .inl ⟨_, .name _⟩

/-- A step with an axis, a test and predicates stands for something, or a part of it is to blame. -/
theorem WrittenStep.standsFor_or_blames_of_parts {w : WrittenStep} {axis : AxisPart} {test : Test}
    {ns : List Nat} {as ts ps : List Char} (hw : w.parts = (axis, test, ns))
    (ha : axis.SpelledBy as) (ht : test.SpelledBy ts) (hp : PredicatesSpelledBy ns ps) :
    (∃ t, w.StandsFor t) ∨ ∃ before piece behind fault,
      as ++ (ts ++ ps) = before ++ (piece ++ behind) ∧ w.Blames before piece behind fault := by
  rcases ha.standsFor_or with ⟨a, haxis⟩ | ⟨name, hname, rfl, rfl, hnone⟩
  · rcases ht.standsFor_or with ⟨t, htest⟩ | ⟨name, hname, rfl, rfl, hother⟩
    · have hstands : ∀ position? : Option Nat, ns = position?.toList →
          w.StandsFor ⟨a, t, position?⟩ := by
        intro position? hns
        rw [standsFor_iff, hw]
        exact ⟨haxis, htest, hns⟩
      cases hp with
      | nil => exact .inl ⟨_, hstands none rfl⟩
      | cons hfirst hmore =>
          cases hmore with
          | nil => exact .inl ⟨_, hstands (some _) rfl⟩
          | cons hextra hp =>
              refine .inr ⟨_, _, _, _, ?_, .predicate hw ha haxis ht htest hfirst hextra hp⟩
              simp only [List.append_assoc]
    · exact .inr ⟨as, name ++ ['(', ')'], ps, .test, rfl, .test hw ha haxis hname hother hp⟩
  · refine .inr ⟨[], name, _, .axis, ?_, .axis hw hname hnone ht hp⟩
    rw [List.nil_append, List.append_assoc]

theorem WrittenStep.SpelledBy.standsFor_or_blames {w : WrittenStep} {ws : List Char}
    (h : w.SpelledBy ws) :
    (∃ t, w.StandsFor t) ∨ ∃ before piece behind fault,
      ws = before ++ (piece ++ behind) ∧ w.Blames before piece behind fault := by
  cases h with
  | self => exact .inl ⟨_, .self⟩
  | parent => exact .inl ⟨_, .parent⟩
  | attributes ht hp =>
      exact standsFor_or_blames_of_parts (w := .attributes _ _) rfl .attributes ht hp
  | along hname ht hp =>
      have hor := standsFor_or_blames_of_parts (w := .along _ _ _) rfl (.along hname) ht hp
      rwa [List.append_assoc] at hor
  | child ht hp => exact standsFor_or_blames_of_parts (w := .child _ _) rfl .child ht hp

theorem MoreSpelledBy.standFor_or_blames {more : List (Separator × WrittenStep)} {ms : List Char}
    (h : MoreSpelledBy more ms) :
    (∃ ts, StandFor more ts) ∨ ∃ before piece behind fault,
      ms = before ++ (piece ++ behind) ∧ MoreBlames more before piece behind fault := by
  induction h with
  | nil => exact .inl ⟨[], .nil⟩
  | @cons s w more ss ws ms hs hw hmore ih =>
      -- a step that stands for nothing is to blame, whatever those behind it stand for
      rcases hw.standsFor_or_blames with ⟨t, hstands⟩ | ⟨before, piece, behind, fault, rfl, hblames⟩
      · rcases ih with ⟨ts, hts⟩ | ⟨before, piece, behind, fault, rfl, hblames⟩
        · exact .inl ⟨_, .cons s hstands hts⟩
        · refine .inr ⟨_, _, _, _, ?_, .there hs hw hstands hblames⟩
          simp only [List.append_assoc]
      · refine .inr ⟨_, _, _, _, ?_, .here hs hblames hmore⟩
        simp only [List.append_assoc]

/-- All steps of a text stand for something, or something in it is to blame. -/
theorem Written.SpelledBy.standFor_or_blames {w : Written} {cs : List Char} (h : w.SpelledBy cs) :
    (∃ ts, StandFor w.steps ts) ∨ ∃ before piece behind fault,
      cs = before ++ (piece ++ behind) ∧ w.Blames before piece behind fault := by
  cases h with
  | bare _ _ _ _ => exact .inl ⟨[], .nil⟩
  | steps hfront hlead hfirst hmore hback =>
      rcases hfirst.standsFor_or_blames with
        ⟨t, hstands⟩ | ⟨before, piece, behind, fault, rfl, hblames⟩
      · rcases hmore.standFor_or_blames with
          ⟨ts, hts⟩ | ⟨before, piece, behind, fault, rfl, hblames⟩
        · exact .inl ⟨_, .cons _ hstands hts⟩
        · refine .inr ⟨_, _, _, _, ?_, .more hfront hlead hfirst hstands hblames hback⟩
          simp only [List.append_assoc]
      · refine .inr ⟨_, _, _, _, ?_, .first hfront hlead hblames hmore hback⟩
        simp only [List.append_assoc]

/-! ## What is to blame is what the error points at -/

namespace Step

variable {s : Step} {axis : Axis} {test : SpelledTest} {name : String}

theorem expandOnto_of_no_axis (hname : s.axis = .named name) (hnone : ∀ a : Axis, a.name ≠ name)
    (p : Path) : s.expandOnto p = .error (Fault.axis.error name s.axisSpan) := by
  have herror : s.resolveAxis = .error (Fault.axis.error name s.axisSpan) := by
    cases hfound : Axis.ofName? name with
    | none => simp only [resolveAxis, hname, hfound, Fault.error]
    | some a =>
        have hstands : s.resolveAxis = .ok a := by simp only [resolveAxis, hname, hfound]
        rw [resolveAxis_eq_ok_iff, hname] at hstands
        cases hstands
        exact absurd rfl (hnone a)
  rw [expandOnto, herror]
  rfl

theorem expandOnto_of_no_test (haxis : s.axis.StandsFor axis) (hname : s.test = .function name)
    (hother : name ≠ "node") (p : Path) :
    s.expandOnto p = .error (Fault.test.error (name ++ "()") s.testSpan) := by
  have herror : s.checkTest = .error (Fault.test.error (name ++ "()") s.testSpan) := by
    simp only [checkTest, hname, if_neg hother, Fault.error]
  rw [expandOnto, (resolveAxis_eq_ok_iff s axis).mpr haxis, herror]
  rfl

theorem expandOnto_of_two_predicates (haxis : s.axis.StandsFor axis)
    (htest : s.test.StandsFor test) {first extra : Nat × Span} {more : List (Nat × Span)}
    (hp : s.predicates = first :: extra :: more) (p : Path) :
    s.expandOnto p = .error (.extraPredicate extra.2) := by
  have herror : s.resolvePosition = .error (.extraPredicate extra.2) := by
    simp only [resolvePosition, hp]
  rw [expandOnto, (resolveAxis_eq_ok_iff s axis).mpr haxis, s.checkTest_eq_ok_iff.mpr ⟨_, htest⟩,
    herror]
  rfl

end Step

/-- The place of a piece of text behind another, from an offset on. -/
def spanBehind (offset : Nat) (before piece : List Char) : Span :=
  ⟨offset + Text.utf8Length before, offset + Text.utf8Length (before ++ piece)⟩

variable {rest : List Char}

/-- A step for which something is to blame is read, and cannot be expanded. -/
theorem WrittenStep.Blames.exists_step {w : WrittenStep} {before piece behind : List Char}
    {fault : Fault} (h : w.Blames before piece behind fault) (hrest : EndsStep rest)
    (offset : Nat) :
    ∃ step after, step? ⟨offset, before ++ (piece ++ behind) ++ rest⟩ = some (step, after)
      ∧ ∀ p, step.expandOnto p
        = .error (fault.error (String.ofList piece) (spanBehind offset before piece)) := by
  have hbracket : rest.head? ≠ some '[' := hrest.head?_ne (by decide) (by decide)
  cases h with
  | @axis _ ts ps test ns hw hname hnone ht hp =>
      obtain ⟨qs, hpredicates, -⟩ := predicates_append hp hbracket
        (offset + Text.utf8Length (piece ++ [':', ':']) + Text.utf8Length ts)
      obtain ⟨span, hread, hspan⟩ :=
        step?_append (.along hname) ht (hp.endsTest_append hrest) hpredicates
      have htext : [] ++ (piece ++ ([':', ':'] ++ (ts ++ ps))) ++ rest
          = piece ++ [':', ':'] ++ (ts ++ ps) ++ rest := by
        simp only [List.append_assoc, List.nil_append]
      rw [htext]
      refine ⟨_, _, hread, fun p => ?_⟩
      rw [Step.expandOnto_of_no_axis rfl hnone, hspan piece rfl]
      rfl
  | @test axis a _ name _ ns hw ha haxis hname hother hp =>
      obtain ⟨qs, hpredicates, -⟩ := predicates_append hp hbracket
        (offset + Text.utf8Length before + Text.utf8Length (name ++ ['(', ')']))
      obtain ⟨span, hread, -⟩ :=
        step?_append ha (.function hname) (hp.endsTest_append hrest) hpredicates
      have hquote : String.ofList (name ++ ['(', ')']) = String.ofList name ++ "()" :=
        String.ofList_append
      refine ⟨_, _, hread, fun p => ?_⟩
      rw [Step.expandOnto_of_no_test haxis rfl hother, hquote]
      simp only [Fault.error, spanBehind, Text.utf8Length_append, ← Nat.add_assoc]
  | @predicate axis a test t n m ns as ts cs _ _ hw ha haxis ht htest hfirst hextra hp =>
      -- each predicate begins where the one before it ends
      let offset₁ := offset + Text.utf8Length as + Text.utf8Length ts
      let offset₂ := offset₁ + Text.utf8Length cs
      let offset₃ := offset₂ + Text.utf8Length piece
      obtain ⟨qs, hmore, -⟩ := predicates_append hp hbracket offset₃
      have hpredicates : predicates ⟨offset₁, cs ++ (piece ++ behind) ++ rest⟩
          = ((n, ⟨offset₁, offset₂⟩) :: (m, ⟨offset₂, offset₃⟩) :: qs,
            ⟨offset₃ + Text.utf8Length behind, rest⟩) := by
        rw [List.append_assoc, List.append_assoc,
          predicates_of_some (predicate?_append hfirst offset₁),
          predicates_of_some (predicate?_append hextra offset₂), hmore]
      have hends := (PredicatesSpelledBy.cons hfirst (.cons hextra hp)).endsTest_append hrest
      obtain ⟨span, hread, -⟩ := step?_append ha ht hends hpredicates
      have htext : as ++ (ts ++ cs) ++ (piece ++ behind) ++ rest
          = as ++ (ts ++ (cs ++ (piece ++ behind))) ++ rest := by
        simp only [List.append_assoc]
      rw [htext]
      refine ⟨_, _, hread, fun p => ?_⟩
      rw [Step.expandOnto_of_two_predicates haxis htest rfl]
      simp only [Fault.error, spanBehind, Text.utf8Length_append, ← Nat.add_assoc, offset₁, offset₂,
        offset₃]

theorem spanBehind_append (offset : Nat) (front before piece : List Char) :
    spanBehind (offset + Text.utf8Length front) before piece
      = spanBehind offset (front ++ before) piece := by
  simp only [spanBehind, List.append_assoc, Text.utf8Length_append, Nat.add_assoc]

/-- Steps are expanded up to the one that is to blame. -/
theorem MoreBlames.foldlM_expandOnto {more : List (Separator × WrittenStep)}
    {before piece behind : List Char} {fault : Fault}
    (h : MoreBlames more before piece behind fault) (hrest : EndsStep rest) (offset : Nat)
    (p : Path) :
    (moreSteps ⟨offset, before ++ (piece ++ behind) ++ rest⟩).1.foldlM
        (fun p s => s.2.expandOnto (s.1.expandOnto p)) p
      = .error (fault.error (String.ofList piece) (spanBehind offset before piece)) := by
  induction h generalizing offset p with
  | @here s w more ss before piece behind ms fault hs hw hmore =>
      obtain ⟨step, after, hread, herror⟩ :=
        hw.exists_step (hmore.endsStep_append hrest) (offset + Text.utf8Length ss)
      have htext : ss ++ before ++ (piece ++ (behind ++ ms)) ++ rest
          = ss ++ (before ++ (piece ++ behind) ++ (ms ++ rest)) := by
        simp only [List.append_assoc]
      rw [htext, moreSteps_cons hs hw.spelledBy offset hread, List.foldlM_cons, herror,
        spanBehind_append]
      rfl
  | @there s w t more ss ws before piece behind fault hs hw hstands hmore ih =>
      obtain ⟨step, hread, hparts⟩ := takes_step hw (hmore.spelledBy.endsStep_append hrest)
        (offset + Text.utf8Length ss)
      have htext : ss ++ (ws ++ before) ++ (piece ++ behind) ++ rest
          = ss ++ (ws ++ (before ++ (piece ++ behind) ++ rest)) := by
        simp only [List.append_assoc]
      rw [htext, moreSteps_cons hs hw offset hread, List.foldlM_cons,
        (Step.expandOnto_eq_ok_iff hparts _ _).mpr ⟨t, hstands, rfl⟩, ← spanBehind_append,
        ← spanBehind_append]
      exact ih _ _

/-- Whatever is to blame in a text is what its error points at. -/
theorem Written.Blames.ofText?_eq {w : Written} {before piece behind : List Char} {fault : Fault}
    (h : w.Blames before piece behind fault) :
    Path.ofText? (String.ofList (before ++ (piece ++ behind)))
      = .error (fault.error (String.ofList piece) (spanBehind 0 before piece)) := by
  cases h with
  | @first lead? w more front ls before _ behind ms back _ hfront hlead hw hmore hback =>
      obtain ⟨step, after, hread, herror⟩ := hw.exists_step
        (hmore.endsStep_append hback.endsStep) (0 + Text.utf8Length (front ++ ls))
      have htext : front ++ (ls ++ before) ++ (piece ++ (behind ++ (ms ++ back)))
          = front ++ (ls ++ (before ++ (piece ++ behind) ++ (ms ++ back))) := by
        simp only [List.append_assoc]
      have hplace : spanBehind (0 + Text.utf8Length (front ++ ls)) before piece
          = spanBehind 0 (front ++ (ls ++ before)) piece := by
        rw [spanBehind_append, List.append_assoc]
      rw [htext, Path.ofText?_of_surface
        (ofText?_of_first hfront hlead hw.spelledBy hmore hback hread)]
      simp only [expand, List.foldlM_cons, herror, hplace]
      rfl
  | @more lead? w t more front ls ws before _ behind back _ hfront hlead hw hstands hmore hback =>
      obtain ⟨step, hread, hparts⟩ := takes_step hw
        (hmore.spelledBy.endsStep_append hback.endsStep) (0 + Text.utf8Length (front ++ ls))
      have htext : front ++ (ls ++ (ws ++ before)) ++ (piece ++ (behind ++ back))
          = front ++ (ls ++ (ws ++ (before ++ (piece ++ behind) ++ back))) := by
        simp only [List.append_assoc]
      have hplace : spanBehind (0 + Text.utf8Length (front ++ ls) + Text.utf8Length ws) before piece
          = spanBehind 0 (front ++ (ls ++ (ws ++ before))) piece := by
        rw [spanBehind_append, spanBehind_append, List.append_assoc]
      rw [htext, Path.ofText?_of_surface
        (ofText?_of_first hfront hlead hw hmore.spelledBy hback hread)]
      simp only [expand, ← hplace, List.foldlM_cons,
        (Step.expandOnto_eq_ok_iff hparts _ _).mpr ⟨t, hstands, rfl⟩]
      exact hmore.foldlM_expandOnto hback.endsStep _ _

/-- A fault is not that the text has not the form of a path. -/
theorem Fault.error_ne_malformed (fault : Fault) (piece : String) (span : Span) :
    fault.error piece span ≠ .malformed := by
  cases fault <;> nofun

end Surface

/-! ## Bytes and characters -/

namespace Text

theorem size_toByteArray_ofList (cs : List Char) :
    (String.ofList cs).toByteArray.size = utf8Length cs := by
  rw [String.toByteArray_ofList]
  induction cs with
  | nil => rfl
  | cons c cs ih =>
      rw [List.utf8Encode_cons, ByteArray.size_append, List.utf8Encode_singleton,
        List.size_toByteArray, String.length_utf8EncodeChar, ih, utf8Length_cons]

/-- The bytes of a piece of text are those behind the bytes of what stands in front of it. -/
theorem extract_toByteArray (before piece behind : List Char) :
    (String.ofList (before ++ (piece ++ behind))).toByteArray.extract (utf8Length before)
      (utf8Length (before ++ piece)) = (String.ofList piece).toByteArray := by
  have hskip := ByteArray.extract_append_size_add (a := (String.ofList before).toByteArray)
    (b := (String.ofList piece).toByteArray ++ (String.ofList behind).toByteArray) (i := 0)
    (j := (String.ofList piece).toByteArray.size)
  rw [Nat.add_zero, ByteArray.extract_append_eq_left rfl] at hskip
  rw [utf8Length_append, ← size_toByteArray_ofList, ← size_toByteArray_ofList,
    String.ofList_append, String.ofList_append, String.toByteArray_append,
    String.toByteArray_append, hskip]

end Text

theorem Cli.charsBefore_utf8Length (before behind : List Char) :
    Cli.charsBefore (Text.utf8Length before) (before ++ behind) = before.length := by
  induction before with
  | nil => cases behind <;> rfl
  | cons c before ih =>
      have hpos := c.utf8Size_pos
      rw [Text.utf8Length_cons, List.cons_append, charsBefore, if_neg (by omega),
        Nat.add_sub_cancel_left, ih, List.length_cons]

namespace Path

theorem ofText?_eq_malformed_iff (text : String) :
    ofText? text = .error .malformed ↔ ∀ w : Surface.Written, ¬ w.SpelledBy text.toList := by
  constructor
  · intro hmalformed w hw
    rcases hw.standFor_or_blames with ⟨ts, hts⟩ | ⟨before, piece, behind, fault, htext, hblames⟩
    · have hok := ofText?_of_spelledBy hw hts
      rw [String.ofList_toList, hmalformed] at hok
      cases hok
    · have herror := hblames.ofText?_eq
      rw [← htext, String.ofList_toList, hmalformed] at herror
      exact fault.error_ne_malformed _ _ (Except.error.inj herror).symm
  · intro hnone
    unfold ofText?
    cases hread : Surface.ofText? text with
    | none => rfl
    | some surface =>
        obtain ⟨w, hw, -⟩ := Surface.exists_spelledBy_of_ofText? hread
        exact absurd hw (hnone w)

/-- **What errors of reading a path point at.** A text is refused as a whole exactly when the
grammar does not derive it, whatever stands in it. In a text that is derived and still not read,
something is to blame. And whatever is to blame, the error says so and quotes it: its span begins
and ends between two characters, the bytes in it are those of the piece that is to blame, and
counted in characters it is the same piece. -/
theorem ofText?_blames (text : String) :
    (ofText? text = .error .malformed ↔ ∀ w : Surface.Written, ¬ w.SpelledBy text.toList)
    ∧ (∀ w : Surface.Written, w.SpelledBy text.toList → (∀ p, ofText? text ≠ .ok p) →
      ∃ before piece behind fault, text.toList = before ++ (piece ++ behind)
        ∧ w.Blames before piece behind fault)
    ∧ ∀ (w : Surface.Written) (before piece behind : List Char) (fault : Surface.Fault),
      text.toList = before ++ (piece ++ behind) → w.Blames before piece behind fault →
      ∃ span, ofText? text = .error (fault.error (String.ofList piece) span)
        ∧ span = ⟨Text.utf8Length before, Text.utf8Length (before ++ piece)⟩
        ∧ text.toByteArray.extract span.lo span.hi = (String.ofList piece).toByteArray
        ∧ Cli.charRange text span = (before.length, (before ++ piece).length) := by
  refine ⟨ofText?_eq_malformed_iff text, ?_, ?_⟩
  · intro w hw hnot
    rcases hw.standFor_or_blames with ⟨ts, hts⟩ | hblames
    · have hok := ofText?_of_spelledBy hw hts
      rw [String.ofList_toList] at hok
      exact absurd hok (hnot _)
    · exact hblames
  · intro w before piece behind fault htext hblames
    have hstring : text = String.ofList (before ++ (piece ++ behind)) := by
      rw [← htext, String.ofList_toList]
    refine ⟨_, ?_, rfl, ?_, ?_⟩
    · rw [hstring, hblames.ofText?_eq, Surface.spanBehind, Nat.zero_add, Nat.zero_add]
    · rw [hstring]
      exact Text.extract_toByteArray before piece behind
    · have hend := Cli.charsBefore_utf8Length (before ++ piece) behind
      rw [List.append_assoc] at hend
      rw [Cli.charRange, htext, hend, Cli.charsBefore_utf8Length before (piece ++ behind)]

/-- Two steps, the second of them along an axis whose name is misspelled. -/
def misspelled : Surface.Written :=
  ⟨none, some (.child (.name "été") [], [(.child, .along "chlid" (.name "x") [])])⟩

theorem ofText?_blames_misspelled :
    misspelled.Blames "été/".toList "chlid".toList "::x".toList .axis
    ∧ ofText? "été/chlid::x" = .error (.unknownAxis "chlid" ⟨6, 11⟩ (some "child"))
    ∧ Cli.charRange "été/chlid::x" ⟨6, 11⟩ = (4, 9) := by
  have hname : Surface.IsPlainName ['é', 't', 'é'] :=
    ⟨by decide, List.all_eq_true.mp (by decide)⟩
  have haxis : Surface.IsPlainName ['c', 'h', 'l', 'i', 'd'] :=
    ⟨by decide, List.all_eq_true.mp (by decide)⟩
  have htest : Surface.IsPlainName ['x'] := ⟨by decide, List.all_eq_true.mp (by decide)⟩
  have hfirst : (Surface.WrittenStep.child (.name "été") []).SpelledBy "été".toList :=
    .child (.plain hname) .nil
  have hblames : misspelled.Blames "été/".toList "chlid".toList "::x".toList .axis :=
    .more Surface.isBlank_nil .none hfirst (.child (.name "été") none)
      (.here (.mk (s := .child) Surface.isBlank_nil Surface.isBlank_nil)
        (.axis rfl haxis (fun a => by cases a <;> decide) (.plain htest) .nil) .nil)
      Surface.isBlank_nil
  obtain ⟨span, herror, rfl, -, hchars⟩ :=
    (ofText?_blames "été/chlid::x").2.2 misspelled _ _ _ _ rfl hblames
  exact ⟨hblames, herror, hchars⟩

end Path

end JsonAxes
