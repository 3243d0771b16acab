import JsonAxes.Proofs.Path.Spelling
import JsonAxes.Proofs.Query.Meaning

/-!
# Queries see names and not their numbers

A step tests for a name by its number in the table of its path. If the table has no name twice and
has the names of the steps in it (`NameTable.Serves`), as the table of every path that can be made
does, then a test asks for the name that it spells and for nothing else (`Serves.passes`). So steps
that spell the same lead to the same places and come upon the same faults, whatever their tables
are (`Path.evalSteps_congr`, `Path.faultIn?_congr`).
-/

set_option autoImplicit false

namespace JsonAxes

universe u

variable {N : Type u} {T : Tree N}

/-! ## Tests with their names spelled out -/

namespace SpelledTest

/-- Whether the node at a place passes a test. -/
def passes (T : Tree N) (test : SpelledTest) (p : Place N) : Bool :=
  match test with
  | .wildcard => true
  | .node => true
  | .name wanted => T.tag p.node == wanted

/-- The names of the attributes that a test asks for. -/
def attributeNames (T : Tree N) (test : SpelledTest) (p : Place N) : List String :=
  match test with
  | .wildcard => T.attributeNames p.node
  | .node => T.attributeNames p.node
  | .name wanted => [wanted]

end SpelledTest

namespace NameTable

/-- Whether a table has no name twice and has the names that some steps test for. -/
structure Serves (names : NameTable) (steps : List Step) : Prop where
  nodup : names.names.Nodup
  resolves : ∀ s ∈ steps, ∀ id, s.test = .name id → ∃ name, names.resolve? id = some name

variable {names : NameTable} {steps : List Step}

theorem Serves.mono (h : names.Serves steps) {fewer : List Step} (hsub : fewer ⊆ steps) :
    names.Serves fewer :=
  ⟨h.nodup, fun s hs => h.resolves s (hsub hs)⟩

theorem lookup?_eq_some_iff (hnodup : names.names.Nodup) {name other : String} {id : Nat}
    (hname : names.resolve? id = some name) : names.lookup? other = some id ↔ other = name := by
  constructor
  · intro hother
    have hresolve := resolve?_of_lookup? hother
    rw [hname] at hresolve
    exact (Option.some.inj hresolve).symm
  · rintro rfl
    exact lookup?_of_resolve? hnodup hname

/-- A test passes what passes the test that it spells. -/
theorem Serves.passes (h : names.Serves steps) {s : Step} (hs : s ∈ steps) (T : Tree N)
    (p : Place N) : s.test.passes T names p = (s.test.spelled names).passes T p := by
  cases htest : s.test with
  | wildcard => rfl
  | node => rfl
  | name id =>
      obtain ⟨name, hname⟩ := h.resolves s hs id htest
      have hlookup : names.lookup? (T.tag p.node) = some id ↔ T.tag p.node = name :=
        lookup?_eq_some_iff h.nodup hname
      simp only [NodeTest.passes, NodeTest.spelled, hname, Option.getD_some, SpelledTest.passes]
      rw [Bool.eq_iff_iff, beq_iff_eq, beq_iff_eq, hlookup]

/-- A test asks for the attributes that the test asks for that it spells. -/
theorem Serves.attributeNames (h : names.Serves steps) {s : Step} (hs : s ∈ steps) (T : Tree N)
    (p : Place N) :
    s.test.attributeNames T names p = (s.test.spelled names).attributeNames T p := by
  cases htest : s.test with
  | wildcard => rfl
  | node => rfl
  | name id =>
      obtain ⟨name, hname⟩ := h.resolves s hs id htest
      simp [NodeTest.attributeNames, NodeTest.spelled, hname, SpelledTest.attributeNames]

end NameTable

/-- The table of a path put together from what it spells serves its steps. -/
theorem Path.IsSpelled.serves {p : Path} (hp : p.IsSpelled) : p.names.Serves p.steps :=
  ⟨hp.nodup, hp.resolves⟩

theorem Path.Made.serves {p : Path} (hp : p.Made) : p.names.Serves p.steps :=
  hp.isSpelled.serves

/-! ## Steps that spell the same -/

section Congr

variable {names names' : NameTable} {steps steps' : List Step}

/-- Steps that spell the same are on the same axes. -/
theorem Step.exists_axis_eq
    (heq : steps'.map (Step.spelled names') = steps.map (Step.spelled names)) {s' : Step}
    (hs' : s' ∈ steps') : ∃ s ∈ steps, s.axis = s'.axis := by
  have hmem : s'.spelled names' ∈ steps.map (Step.spelled names) := heq ▸ List.mem_map_of_mem hs'
  obtain ⟨s, hs, hspelled⟩ := List.mem_map.mp hmem
  exact ⟨s, hs, congrArg SpelledStep.axis hspelled⟩

/-- Steps that spell the same lead to the same places. -/
theorem Step.selected_congr {s s' : Step} (h : names.Serves steps) (h' : names'.Serves steps')
    (hs : s ∈ steps) (hs' : s' ∈ steps') (heq : s'.spelled names' = s.spelled names)
    (p : Place N) : s'.selected T names' p = s.selected T names p := by
  have haxis : s'.axis = s.axis := congrArg SpelledStep.axis heq
  have htest : s'.test.spelled names' = s.test.spelled names := congrArg SpelledStep.test heq
  have hposition : s'.position? = s.position? := congrArg SpelledStep.position? heq
  have hpasses : s'.test.passes T names' = s.test.passes T names := by
    funext q
    rw [h'.passes hs', htest, h.passes hs]
  have hattributes : s'.test.attributeNames T names' p = s.test.attributeNames T names p := by
    rw [h'.attributeNames hs', htest, h.attributeNames hs]
  have halong : p.along T names' s'.test s.axis = p.along T names s.test s.axis := by
    cases s.axis with
    | attributes => simp only [Place.along, Place.attributePlaces, hattributes]
    | _ => rfl
  rw [selected, selected, haxis, hposition, halong, hpasses]

namespace Path

/-- Paths that spell the same steps lead to the same places. -/
theorem evalSteps_congr (h : names.Serves steps) (h' : names'.Serves steps')
    (heq : steps'.map (Step.spelled names') = steps.map (Step.spelled names)) (p : Place N) :
    evalSteps T names' steps' p = evalSteps T names steps p := by
  induction steps generalizing steps' p with
  | nil =>
      rw [List.map_nil, List.map_eq_nil_iff] at heq
      rw [heq, evalSteps, evalSteps]
  | cons s rest ih =>
      rw [List.map_cons, List.map_eq_cons_iff] at heq
      obtain ⟨s', rest', rfl, hstep, hrest⟩ := heq
      have hselected : s'.selected T names' p = s.selected T names p :=
        Step.selected_congr h h' List.mem_cons_self List.mem_cons_self hstep p
      have hbehind : evalSteps T names' rest' = evalSteps T names rest :=
        funext (ih (h.mono (List.subset_cons_self s rest))
          (h'.mono (List.subset_cons_self s' rest')) hrest)
      rw [evalSteps, evalSteps, hselected, hbehind]

/-- Paths that spell the same steps come upon the same faults. -/
theorem faultIn?_congr (h : names.Serves steps) (h' : names'.Serves steps')
    (heq : steps'.map (Step.spelled names') = steps.map (Step.spelled names)) (p : Place N) :
    faultIn? T names' steps' p = faultIn? T names steps p := by
  induction steps generalizing steps' p with
  | nil =>
      rw [List.map_nil, List.map_eq_nil_iff] at heq
      rw [heq, faultIn?, faultIn?]
  | cons s rest ih =>
      rw [List.map_cons, List.map_eq_cons_iff] at heq
      obtain ⟨s', rest', rfl, hstep, hrest⟩ := heq
      have haxis : s'.axis = s.axis := congrArg SpelledStep.axis hstep
      have hselected : s'.selected T names' p = s.selected T names p :=
        Step.selected_congr h h' List.mem_cons_self List.mem_cons_self hstep p
      have hbehind : faultIn? T names' rest' = faultIn? T names rest :=
        funext (ih (h.mono (List.subset_cons_self s rest))
          (h'.mono (List.subset_cons_self s' rest')) hrest)
      rw [faultIn?, faultIn?, haxis, hselected, hbehind]

end Path

end Congr

end JsonAxes
