import JsonAxes.Proofs.Path.Acceptance
import JsonAxes.Proofs.Path.Written
import JsonAxes.Proofs.Query.DocumentOrder

/-!
# Writing a path and reading it again

A path that is written out is read back as itself: with the same leading separator, the same steps
and the same table of names. What is written is derived by the grammar for the steps of the path
(`Surface.spelledBy_pathText`), and a path, however it was made, is the one put together from what
its steps spell (`Path.Made.isSpelled`).

A path that is read from a text can be written again (`Path.isWritable_of_ofText?`): its positions
were written as positions, and its names stood in quotes of one kind, if in any.
-/

set_option autoImplicit false

namespace JsonAxes

/-- Whether a path can be written so that it is read back. -/
structure Path.IsWritable (p : Path) : Prop where
  position : ∀ s ∈ p.steps, ∀ n, s.position? = some n → IsPosition n
  name : ∀ name ∈ p.names.names, IsQuotable name

instance (p : Path) : Decidable p.IsWritable :=
  decidable_of_iff
    ((∀ s ∈ p.steps, ∀ n ∈ s.position?, IsPosition n) ∧ ∀ name ∈ p.names.names, IsQuotable name)
    ⟨fun h => ⟨h.1, h.2⟩, fun h => ⟨h.position, h.name⟩⟩

/-! ## What is read can be written -/

namespace Surface

theorem isQuotable_of_standsFor {t : Test} {cs : List Char} {t' : SpelledTest}
    (h : t.SpelledBy cs) (ht : t.StandsFor t') : ∀ name, t' = .name name → IsQuotable name := by
  rintro name rfl
  cases ht
  intro hdouble hsingle
  cases h with
  | plain h =>
      rw [String.toList_ofList] at hdouble
      have hname := h.isNameChar '"' hdouble
      rw [isNameChar_mark '"' (by decide)] at hname
      cases hname
  | quoted hquote h =>
      rw [String.toList_ofList] at hdouble hsingle
      rcases hquote with rfl | rfl
      · exact h hdouble
      · exact h hsingle

theorem isPosition_of_spelledBy {ns : List Nat} {cs : List Char} (h : PredicatesSpelledBy ns cs) :
    ∀ n ∈ ns, IsPosition n := by
  induction h with
  | nil => exact nofun
  | cons h _ ih =>
      intro n hn
      rcases List.mem_cons.mp hn with rfl | hn
      · cases h with
        | mk h _ _ _ => exact h
      · exact ih n hn

/-- What a step stands for that was derived can be written. -/
theorem isWritable_of_standsFor {w : WrittenStep} {cs : List Char} {t : SpelledStep}
    (h : w.SpelledBy cs) (ht : w.StandsFor t) : t.IsWritable := by
  have hpositions : ∀ {position? : Option Nat} {ps : List Char},
      PredicatesSpelledBy position?.toList ps → ∀ n, position? = some n → IsPosition n := by
    rintro _ ps hp n rfl
    exact isPosition_of_spelledBy hp n List.mem_cons_self
  cases ht with
  | self => exact ⟨nofun, nofun⟩
  | parent => exact ⟨nofun, nofun⟩
  | attributes ht _ =>
      cases h with
      | attributes hs hp => exact ⟨isQuotable_of_standsFor hs ht, hpositions hp⟩
  | along axis ht _ =>
      generalize hname : axis.name = name at h
      cases h with
      | along _ hs hp => exact ⟨isQuotable_of_standsFor hs ht, hpositions hp⟩
  | child ht _ =>
      cases h with
      | child hs hp => exact ⟨isQuotable_of_standsFor hs ht, hpositions hp⟩

theorem exists_spelledBy_of_mem_more {more : List (Separator × WrittenStep)} {cs : List Char}
    (h : MoreSpelledBy more cs) : ∀ s ∈ more, ∃ ds, s.2.SpelledBy ds := by
  induction h with
  | nil => exact nofun
  | cons _ hstep _ ih =>
      intro s hs
      rcases List.mem_cons.mp hs with rfl | hs
      · exact ⟨_, hstep⟩
      · exact ih s hs

theorem exists_spelledBy_of_mem_steps {w : Written} {cs : List Char} (h : w.SpelledBy cs) :
    ∀ s ∈ w.steps, ∃ ds, s.2.SpelledBy ds := by
  cases h with
  | bare _ _ _ _ => exact nofun
  | steps _ _ hfirst hmore _ =>
      intro s hs
      rcases List.mem_cons.mp hs with rfl | hs
      · exact ⟨_, hfirst⟩
      · exact exists_spelledBy_of_mem_more hmore s hs

theorem isWritable_of_standFor {steps : List (Separator × WrittenStep)} {ts : List SpelledStep}
    (h : StandFor steps ts) (hsteps : ∀ s ∈ steps, ∃ ds, s.2.SpelledBy ds) :
    ∀ t ∈ ts, t.IsWritable := by
  induction h with
  | nil => exact nofun
  | @cons s step steps t ts hstep _ ih =>
      intro u hu
      rcases List.mem_append.mp hu with hu | hu
      · -- the step of a double slash has neither a name nor a position
        cases s with
        | child => cases hu
        | deep =>
            rw [List.mem_singleton.mp hu]
            exact ⟨nofun, nofun⟩
      · rcases List.mem_cons.mp hu with rfl | hu
        · obtain ⟨ds, hds⟩ := hsteps _ List.mem_cons_self
          exact isWritable_of_standsFor hds hstep
        · exact ih (fun v hv => hsteps v (List.mem_cons_of_mem _ hv)) u hu

end Surface

namespace Path

theorem IsWritable.append {p : Path} {t : SpelledStep} (hp : p.IsWritable) (ht : t.IsWritable) :
    (p.append t).IsWritable := by
  obtain ⟨axis, test, position?⟩ := t
  -- the step is new, and its name may be
  have hsteps : ∀ test', ∀ s ∈ p.steps ++ [⟨axis, test', position?⟩], ∀ n,
      s.position? = some n → IsPosition n := by
    intro test' s hs n hn
    rcases List.mem_append.mp hs with hs | hs
    · exact hp.position s hs n hn
    · rw [List.mem_singleton.mp hs] at hn
      exact ht.position n hn
  cases test with
  | wildcard => exact ⟨hsteps .wildcard, hp.name⟩
  | node => exact ⟨hsteps .node, hp.name⟩
  | name name =>
      refine ⟨hsteps _, fun other hother => ?_⟩
      rcases NameTable.mem_or_eq_of_mem_intern hother with hother | rfl
      · exact hp.name other hother
      · exact ht.name _ rfl

theorem isWritable_bare (absolute : Bool) : (bare absolute).IsWritable := ⟨nofun, nofun⟩

theorem isWritable_ofSpelled {absolute : Bool} {ts : List SpelledStep}
    (hts : ∀ t ∈ ts, t.IsWritable) : (ofSpelled absolute ts).IsWritable := by
  induction ts using List.reverseRecOn with
  | nil => exact isWritable_bare absolute
  | append_singleton ts t ih =>
      rw [ofSpelled_concat]
      apply IsWritable.append
      · exact ih (fun u hu => hts u (List.mem_append_left _ hu))
      · exact hts t (List.mem_append_right _ List.mem_cons_self)

/-- What was read from a text can be written again. -/
theorem isWritable_of_ofText? {text : String} {p : Path} (h : ofText? text = .ok p) :
    p.IsWritable := by
  obtain ⟨w, ts, hw, hts, rfl⟩ := exists_standFor_of_ofText? h
  apply isWritable_ofSpelled
  exact Surface.isWritable_of_standFor hts (Surface.exists_spelledBy_of_mem_steps hw)

/-! ## What is written is read -/

/-- Where a path can be written, so can what its steps spell. -/
theorem IsWritable.spelled {p : Path} (hp : p.IsWritable) : ∀ t ∈ p.spelled, t.IsWritable := by
  intro t ht
  obtain ⟨⟨axis, test, position?⟩, hs, rfl⟩ := List.mem_map.mp ht
  refine ⟨fun name hname => ?_, hp.position _ hs⟩
  cases test with
  | wildcard => cases hname
  | node => cases hname
  | name id =>
      cases hname
      cases hresolve : p.names.resolve? id with
      | none => exact nofun
      | some name => exact hp.name name (List.mem_of_getElem? hresolve)

/-- A path with anything to write is read back as itself. -/
theorem ofText?_display_of_isSpelled {p : Path} (hp : p.IsSpelled) (hw : p.IsWritable)
    (hne : p.absolute = true ∨ p.spelled ≠ []) : ofText? p.display = .ok p := by
  have hwritten := Surface.spelledBy_pathText hw.spelled hne
  have hread := ofText?_of_spelledBy hwritten (Surface.standFor_writtenPath _ _)
  rw [Surface.leading?_writtenPath, ← text_eq] at hread
  calc ofText? p.display
      = .ok (ofSpelled p.absolute p.spelled) := hread
    _ = .ok p := congrArg Except.ok hp.symm

/-- The path of the single dot: one step that leads nowhere else. -/
def itself : Path := Path.empty.step .self "node()"

theorem ofText?_dot : ofText? "." = .ok itself := by
  have hdot : (⟨none, some (.self, [])⟩ : Surface.Written).SpelledBy ['.'] :=
    .steps Surface.isBlank_nil .none .self .nil Surface.isBlank_nil
  exact ofText?_of_spelledBy hdot (.cons .child .self .nil)

/-- The path without steps and the single dot find the root of a document and nothing else. -/
theorem finds_root (v : Value) :
    Document.Finds .empty v [.root (.root v)] ∧ Document.Finds itself v [.root (.root v)] := by
  constructor
  · exact Document.finds_evalSteps .empty nofun v
  · refine Document.finds_evalSteps itself (fun s hs => ?_) v
    rw [List.mem_singleton.mp hs]
    exact nofun

/-- **A path that is displayed is read back.** However a path was made, if its positions count from
one, as far as 64 bits allow, and no name of it has quotes of both kinds in it, then the text it is
displayed as is read as the path itself. Only the relative path without steps is displayed as a
dot, which is read as another path that finds the same in every document. All paths that are read
from texts are among those that can be displayed like that. -/
theorem ofText?_display {p : Path} (hp : p.Made) (hw : p.IsWritable) :
    (p ≠ .empty → ofText? p.display = .ok p)
    ∧ (p = .empty → p.display = "." ∧ ∃ q, ofText? p.display = .ok q ∧ ∀ v : Value, ∃ matched,
      Document.Finds p v matched ∧ Document.Finds q v matched)
    ∧ ∀ (text : String) (q : Path), ofText? text = .ok q → q.IsWritable := by
  refine ⟨fun hne => ?_, ?_, fun text q => isWritable_of_ofText?⟩
  · refine ofText?_display_of_isSpelled hp.isSpelled hw ?_
    by_contra hbare
    rw [not_or, Bool.not_eq_true, not_not] at hbare
    apply hne
    rw [hp.isSpelled, hbare.1, hbare.2]
    rfl
  · rintro rfl
    exact ⟨rfl, itself, ofText?_dot, fun v => ⟨_, finds_root v⟩⟩

/-- A path whose names can only be written in quotes, of one kind or the other. -/
def quotedNames : Path :=
  (((Path.empty.step .child "a/b").step .ancestorOrSelf "say \"hi\"").nth 12).step .attributes ""

theorem ofText?_display_quotedNames :
    (quotedNames.Made ∧ quotedNames.IsWritable ∧ quotedNames ≠ .empty)
    ∧ ofText? "child::\"a/b\"/ancestor-or-self::'say \"hi\"'[12]/attribute::\"\""
      = .ok quotedNames := by
  have hmade : quotedNames.Made := .step (.nth (.step (.step .empty _ _) _ _) _) _ _
  have hwritable : quotedNames.IsWritable := by decide
  have hne : quotedNames ≠ .empty := by decide
  have hdisplay : quotedNames.display
      = "child::\"a/b\"/ancestor-or-self::'say \"hi\"'[12]/attribute::\"\"" := by decide +kernel
  refine ⟨⟨hmade, hwritable, hne⟩, ?_⟩
  rw [← hdisplay]
  exact (ofText?_display hmade hwritable).1 hne

end Path

end JsonAxes
