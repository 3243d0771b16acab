import JsonAxes.Proofs.Tree.Walk
import JsonAxes.Query.Run

/-!
# What a path means

The matches of a path from a place, said without a search. A step has candidates, the places along
its axis in the order of that axis; those that pass its test are kept, and if the step has a
position only the one at that position; the matches are what the rest of the path yields from each
of them in turn (`Path.evalSteps`). Matches are listed as often as they are found.

A tree may lack an axis. A path that comes upon one has no matches and fails (`Path.faultIn?`).
`Path.answersFrom` puts both together in the form in which a query answers.
-/

set_option autoImplicit false

namespace JsonAxes

universe u

variable {N : Type u}

/-! ## Steps -/

/-- Whether a tree has an axis. -/
def Tree.supports (T : Tree N) : Axis → Bool
  | .attributes => T.hasAttributes
  | .namespaces => false
  | _ => true

namespace NodeTest

/-- Whether the node at a place passes a test. -/
def passes (T : Tree N) (names : NameTable) (test : NodeTest) (p : Place N) : Bool :=
  match test with
  | .wildcard => true
  | .node => true
  | .name id => names.lookup? (T.tag p.node) == some id

/-- The names of the attributes that a test asks for. -/
def attributeNames (T : Tree N) (names : NameTable) (test : NodeTest) (p : Place N) :
    List String :=
  match test with
  | .wildcard => T.attributeNames p.node
  | .node => T.attributeNames p.node
  | .name id => (names.resolve? id).toList

end NodeTest

namespace Place

/-- The places of the attributes that a test asks for, as far as there are any. -/
def attributePlaces (T : Tree N) (names : NameTable) (test : NodeTest) (p : Place N) :
    List (Place N) :=
  (test.attributeNames T names p).flatMap fun name => (T.attribute? p.node name).toList.map p.attr

/-- The places along an axis from a place, in the order of the axis; an axis that the tree lacks has
none. -/
noncomputable def along (T : Tree N) (names : NameTable) (test : NodeTest) (p : Place N) :
    Axis → List (Place N)
  | .self => [p]
  | .child => p.childPlaces T
  | .descendant => p.descendants T
  | .descendantOrSelf => p.subtree T
  | .parent => (p.up? T).toList
  | .ancestor => p.ancestors T
  | .ancestorOrSelf => p :: p.ancestors T
  | .followingSibling => p.laterSiblings T
  | .precedingSibling => p.earlierSiblings T
  | .following => p.followers T
  | .preceding => p.predecessors T
  | .attributes => if T.hasAttributes then p.attributePlaces T names test else []
  | .namespaces => []

end Place

/-- What a position leaves of a list: the element there, counted from one; without a position all
of them. -/
def atPosition {α : Type u} (position? : Option Nat) (l : List α) : List α :=
  match position? with
  | none => l
  | some 0 => []
  | some (n + 1) => l[n]?.toList

/-- The places that a step leads to. -/
noncomputable def Step.selected (T : Tree N) (names : NameTable) (s : Step) (p : Place N) :
    List (Place N) :=
  atPosition s.position? ((p.along T names s.test s.axis).filter (s.test.passes T names))

/-! ## Paths -/

namespace Path

/-- The places that some steps lead to. -/
noncomputable def evalSteps (T : Tree N) (names : NameTable) : List Step → Place N → List (Place N)
  | [], p => [p]
  | s :: rest, p => (s.selected T names p).flatMap (evalSteps T names rest)

/-- The axis that some steps come upon although the tree lacks it. -/
noncomputable def faultIn? (T : Tree N) (names : NameTable) : List Step → Place N → Option Axis
  | [], _ => none
  | s :: rest, p =>
    if T.supports s.axis then (s.selected T names p).findSome? (faultIn? T names rest)
    else some s.axis

/-- How a query for some steps ends that comes upon an axis, or upon none, that the tree lacks. -/
def endingOf : Option Axis → Ending
  | none => .exhausted
  | some axis => .failed (.unsupportedAxis axis)

/-- The answers of a query for some steps. -/
noncomputable def answersFrom (T : Tree N) (names : NameTable) (steps : List Step) (p : Place N) :
    Answers N :=
  ⟨evalSteps T names steps p, endingOf (faultIn? T names steps p)⟩

/-- The answers of a query for a path from a node. -/
noncomputable def answers (T : Tree N) (path : Path) (start : N) : Answers N :=
  answersFrom T path.names path.steps (.root start)

/-- Answers come with an end. -/
theorem ending_answers (T : Tree N) (path : Path) (start : N) :
    (path.answers T start).ending ≠ .unfinished := by
  rw [answers, answersFrom]
  cases faultIn? T path.names path.steps (.root start) with
  | none => exact nofun
  | some axis => exact nofun

end Path

/-! ## Steps that a tree lacks -/

theorem Tree.supports_of_ne (T : Tree N) {axis : Axis} (hattributes : axis ≠ .attributes)
    (hnamespaces : axis ≠ .namespaces) : T.supports axis = true := by
  cases axis with
  | attributes => exact absurd rfl hattributes
  | namespaces => exact absurd rfl hnamespaces
  | _ => rfl

theorem Step.selected_of_not_supports {T : Tree N} {s : Step} (h : T.supports s.axis = false)
    (names : NameTable) (p : Place N) : s.selected T names p = [] := by
  have halong : p.along T names s.test s.axis = [] := by
    cases hs : s.axis <;> rw [hs] at h <;> simp [Tree.supports] at h
    · simp [Place.along, h]
    · rfl
  rw [selected, halong]
  cases s.position? with
  | none => rfl
  | some n => cases n <;> rfl

namespace Path

variable {T : Tree N} {names : NameTable}

/-- Steps among which there is one that the tree lacks lead nowhere. -/
theorem evalSteps_of_not_supports {steps : List Step} {s : Step} (hs : s ∈ steps)
    (h : T.supports s.axis = false) (p : Place N) : evalSteps T names steps p = [] := by
  induction steps generalizing p with
  | nil => cases hs
  | cons s' rest ih =>
      rw [evalSteps]
      rcases List.mem_cons.mp hs with rfl | hs
      · rw [s.selected_of_not_supports h, List.flatMap_nil]
      · exact List.flatMap_eq_nil_iff.mpr fun q _ => ih hs q

theorem exists_not_supports_of_faultIn? {steps : List Step} {axis : Axis} {p : Place N}
    (h : faultIn? T names steps p = some axis) : ∃ s ∈ steps, T.supports s.axis = false := by
  induction steps generalizing p with
  | nil => cases h
  | cons s rest ih =>
      rw [faultIn?] at h
      by_cases hs : T.supports s.axis = true
      · rw [if_pos hs] at h
        obtain ⟨q, _, hq⟩ := List.exists_of_findSome?_eq_some h
        obtain ⟨s', hs', hn⟩ := ih hq
        exact ⟨s', List.mem_cons_of_mem s hs', hn⟩
      · exact ⟨s, List.mem_cons_self, by simpa using hs⟩

/-- Steps that come upon an axis that the tree lacks have no matches, from wherever. -/
theorem evalSteps_of_faultIn? {steps : List Step} {axis : Axis} {p : Place N}
    (h : faultIn? T names steps p = some axis) (q : Place N) : evalSteps T names steps q = [] := by
  obtain ⟨s, hs, hn⟩ := exists_not_supports_of_faultIn? h
  exact evalSteps_of_not_supports hs hn q

end Path

/-! ## Answers one after the other -/

namespace Answers

/-- No answers. -/
def nothing : Answers N := ⟨[], .exhausted⟩

/-- Answers and what is answered behind them, if they end without an error. -/
def append (a b : Answers N) : Answers N :=
  match a.ending with
  | .exhausted => ⟨a.matched ++ b.matched, b.ending⟩
  | _ => a

instance : Append (Answers N) := ⟨append⟩

/-- Answers one after the other, up to the first error. -/
def join (as : List (Answers N)) : Answers N := as.foldr (· ++ ·) nothing

theorem exhausted_append (l : List (Place N)) (b : Answers N) :
    (⟨l, .exhausted⟩ : Answers N) ++ b = ⟨l ++ b.matched, b.ending⟩ := rfl

theorem failed_append (l : List (Place N)) (e : QueryError) (b : Answers N) :
    (⟨l, .failed e⟩ : Answers N) ++ b = ⟨l, .failed e⟩ := rfl

@[simp] theorem append_nothing (a : Answers N) : a ++ nothing = a := by
  obtain ⟨l, ending⟩ := a
  cases ending
  · rw [exhausted_append]
    simp [nothing]
  · rfl
  · rfl

theorem append_assoc (a b c : Answers N) : a ++ b ++ c = a ++ (b ++ c) := by
  obtain ⟨l, ending⟩ := a
  cases ending
  · obtain ⟨m, ending⟩ := b
    cases ending
    · simp only [exhausted_append, List.append_assoc]
    · rfl
    · rfl
  · rfl
  · rfl

@[simp] theorem join_nil : join ([] : List (Answers N)) = nothing := rfl

@[simp] theorem join_cons (a : Answers N) (as : List (Answers N)) :
    join (a :: as) = a ++ join as := rfl

theorem join_append (as bs : List (Answers N)) : join (as ++ bs) = join as ++ join bs := by
  induction as with
  | nil => rfl
  | cons a as ih => rw [List.cons_append, join_cons, join_cons, ih, append_assoc]

end Answers

namespace Path

variable {T : Tree N} {names : NameTable}

theorem answersFrom_of_not_supports {s : Step} (h : T.supports s.axis = false) (rest : List Step)
    (p : Place N) :
    answersFrom T names (s :: rest) p = ⟨[], .failed (.unsupportedAxis s.axis)⟩ := by
  rw [answersFrom, evalSteps_of_not_supports List.mem_cons_self h, faultIn?, h]
  rfl

/-- Joined answers are the joined matches, up to the first fault. -/
theorem join_map_answersFrom (steps : List Step) (ps : List (Place N)) :
    Answers.join (ps.map (answersFrom T names steps))
      = ⟨ps.flatMap (evalSteps T names steps),
          endingOf (ps.findSome? (faultIn? T names steps))⟩ := by
  induction ps with
  | nil => rfl
  | cons p ps ih =>
      rw [List.map_cons, Answers.join_cons, ih, List.flatMap_cons, List.findSome?_cons, answersFrom]
      cases hf : faultIn? T names steps p with
      | none => rfl
      | some axis =>
          -- there are no matches behind the fault either, as none of the steps' matches are
          have hnil : ps.flatMap (evalSteps T names steps) = [] :=
            List.flatMap_eq_nil_iff.mpr fun q _ => evalSteps_of_faultIn? hf q
          rw [evalSteps_of_faultIn? hf, hnil]
          rfl

theorem answersFrom_cons {s : Step} (h : T.supports s.axis = true) (rest : List Step)
    (p : Place N) :
    answersFrom T names (s :: rest) p
      = Answers.join ((s.selected T names p).map (answersFrom T names rest)) := by
  rw [join_map_answersFrom, answersFrom, evalSteps, faultIn?, if_pos h]

end Path

end JsonAxes
