import JsonAxes.Proofs.Query.Evaluation
import JsonAxes.Query.Document
import JsonAxes.Proofs.Tree.Preorder

/-!
# The axes around a value

A value of a document is addressed by a path of child steps with positions (`Path.route`), which
finds it alone (`Path.evalSteps_route`). From there the axes lead to what precedes it, to what lies
below it, to what follows it and to what lies above it. Together with the value itself these are
the values of the document, each of them once (`Document.axes_partition`).
-/

set_option autoImplicit false

namespace JsonAxes

universe u

/-! ## Routes -/

/-- The indices among their siblings of the places on the way to a place and of the place itself.
An attribute has none. -/
def Place.indices {N : Type u} : Place N → List Nat
  | root _ => []
  | within owner index? _ => owner.indices ++ index?.toList

namespace Path

/-- The path of child steps that takes one position after another; positions are counted from one,
indices from zero. -/
def route (indices : List Nat) : Path :=
  indices.foldl (fun p i => (p.step .child "*").nth (i + 1)) .empty

/-- The step to a child at an index. -/
def childStep (i : Nat) : Step := ⟨.child, .wildcard, some (i + 1)⟩

theorem route_concat (indices : List Nat) (i : Nat) :
    route (indices ++ [i]) = ((route indices).step .child "*").nth (i + 1) := by
  simp only [route, List.foldl_append, List.foldl_cons, List.foldl_nil]

theorem route_eq (indices : List Nat) : route indices = ⟨false, indices.map childStep, .empty⟩ := by
  induction indices using List.reverseRecOn with
  | nil => rfl
  | append_singleton indices i ih =>
      rw [route_concat, ih]
      simp [step, nth, push, childStep]

variable {N : Type u} {T : Tree N} {names : NameTable}

theorem evalSteps_append (ss ts : List Step) (p : Place N) :
    evalSteps T names (ss ++ ts) p = (evalSteps T names ss p).flatMap (evalSteps T names ts) := by
  induction ss generalizing p with
  | nil => exact (List.append_nil _).symm
  | cons s ss ih =>
      rw [List.cons_append, evalSteps, evalSteps, List.flatMap_assoc]
      exact congrArg (fun f => (s.selected T names p).flatMap f) (funext ih)

theorem evalSteps_singleton (s : Step) (p : Place N) :
    evalSteps T names [s] p = s.selected T names p := List.flatMap_singleton' _

/-- A step that asks for nothing but an axis leads to all there is along the axis. -/
theorem selected_node (axis : Axis) (p : Place N) :
    (⟨axis, .node, none⟩ : Step).selected T names p = p.along T names .node axis :=
  List.filter_eq_self.mpr fun _ _ => rfl

theorem selected_childStep (i : Nat) (p : Place N) :
    (childStep i).selected T names p = (p.childPlaces T)[i]?.toList := by
  have hall : (p.childPlaces T).filter (NodeTest.passes T names .wildcard) = p.childPlaces T :=
    List.filter_eq_self.mpr fun _ _ => rfl
  rw [Step.selected]
  exact congrArg (fun l => (l[i]?).toList) hall

/-- The route to a value of a document finds the value. -/
theorem evalSteps_route {v : Value} {x : Place Node} (hx : x ∈ Document.places v)
    (names : NameTable) :
    evalSteps Node.tree names (x.indices.map childStep) (.root (.root v)) = [x] := by
  refine Document.places_induction rfl (fun owner i n _ hi ih => ?_) hx
  have hindices : (owner.child i n).indices = owner.indices ++ [i] := rfl
  rw [hindices, List.map_append, evalSteps_append, ih, List.flatMap_singleton, List.map_singleton,
    evalSteps_singleton, selected_childStep, hi, Option.toList_some]

end Path

namespace Document

/-! ## What a query finds -/

/-- Whether a query of a document, run without a limit, comes to its end with some matches. -/
def Finds (path : Path) (v : Value) (matched : List (Place Node)) : Prop :=
  ∃ n, ∀ m, n ≤ m → (query path v none).run m = ⟨matched, .exhausted⟩

/-- Where there is no namespace axis in a path, a query finds what the path means. -/
theorem finds_evalSteps (path : Path) (h : ∀ s ∈ path.steps, s.axis ≠ .namespaces) (v : Value) :
    Finds path v (Path.evalSteps Node.tree path.names path.steps (.root (.root v))) := by
  obtain ⟨n, hn⟩ := Query.exists_run_eq_answers path (Node.grounded (.root v))
  refine ⟨n, fun m hm => (hn m hm).trans ?_⟩
  cases hfault : Path.faultIn? Node.tree path.names path.steps (.root (.root v)) with
  | none => rw [Path.answers, Path.answersFrom, hfault, Path.endingOf]
  | some axis =>
      obtain ⟨s, hs, hnot⟩ := Path.exists_not_supports_of_faultIn? hfault
      have hsupports : Node.tree.supports s.axis = true := by
        cases haxis : s.axis with
        | namespaces => exact absurd haxis (h s hs)
        | _ => rfl
      rw [hsupports] at hnot
      cases hnot

/-- Behind the route to a value, steps find what they mean from that value. -/
theorem finds_route_append {v : Value} {x : Place Node} (hx : x ∈ places v) (steps : List Step)
    (h : ∀ s ∈ steps, s.axis ≠ .namespaces) :
    Finds ⟨false, x.indices.map Path.childStep ++ steps, .empty⟩ v
      (Path.evalSteps Node.tree .empty steps x) := by
  have hsteps : ∀ s ∈ x.indices.map Path.childStep ++ steps, s.axis ≠ .namespaces := by
    intro s hs
    rcases List.mem_append.mp hs with hs | hs
    · obtain ⟨i, -, rfl⟩ := List.mem_map.mp hs
      exact nofun
    · exact h s hs
  have hfinds := finds_evalSteps ⟨false, _, .empty⟩ hsteps v
  rwa [Path.evalSteps_append, Path.evalSteps_route hx, List.flatMap_singleton] at hfinds

theorem finds_route {v : Value} {x : Place Node} (hx : x ∈ places v) :
    Finds (Path.route x.indices) v [x] := by
  have hfinds := finds_route_append hx [] nofun
  rwa [List.append_nil, ← Path.route_eq] at hfinds

/-- Behind the route to a value, a step that asks for nothing but an axis finds all there is along
the axis. -/
theorem finds_step_route {v : Value} {x : Place Node} (hx : x ∈ places v) (axis : Axis)
    (h : axis ≠ .namespaces) :
    Finds ((Path.route x.indices).step axis "node()") v (x.along Node.tree .empty .node axis) := by
  have hfinds := finds_route_append hx [⟨axis, .node, none⟩] fun s hs => by
    rw [List.mem_singleton.mp hs]
    exact h
  rw [Path.evalSteps_singleton, Path.selected_node] at hfinds
  rw [Path.route_eq]
  exact hfinds

/-! ## The five axes -/

open Classical in
/-- **The axes partition a document.** Behind the route to a value, which finds that value alone,
the preceding axis, the self axis, the descendant axis and the following axis find, one list behind
the other, the values of the document in document order but for those above the value; the ancestor
axis finds those, from the parent up to the root. So every value of the document, of which there
are as many as are counted in pre-order, is found on exactly one of the five axes and there once. -/
theorem axes_partition {v : Value} {x : Place Node} (hx : x ∈ places v) :
    Finds (Path.route x.indices) v [x]
    ∧ (∃ preceding self descendant following : List (Place Node),
      Finds ((Path.route x.indices).step .preceding "node()") v preceding
      ∧ Finds ((Path.route x.indices).step .self "node()") v self
      ∧ Finds ((Path.route x.indices).step .descendant "node()") v descendant
      ∧ Finds ((Path.route x.indices).step .following "node()") v following
      ∧ Finds ((Path.route x.indices).step .ancestor "node()") v x.above
      ∧ preceding ++ self ++ descendant ++ following = (places v).filter (· ∉ x.above)
      ∧ (preceding ++ self ++ descendant ++ following ++ x.above).Perm (places v))
    ∧ (places v).map Place.number? = (List.range v.count).map some := by
  refine ⟨finds_route hx, ?_, number?_places v⟩
  have hsurround : x.predecessors Node.tree ++ [x] ++ x.descendants Node.tree
      ++ x.followers Node.tree = (places v).filter (· ∉ x.above) := by
    rw [← append_eq_filter hx, Place.subtree_eq (Node.endsBelow _)]
    simp only [List.append_assoc, List.cons_append, List.nil_append]
  have hancestor := finds_step_route hx .ancestor (by decide)
  rw [Place.along, Place.ancestors_eq_above rfl] at hancestor
  refine ⟨x.predecessors Node.tree, [x], x.descendants Node.tree, x.followers Node.tree,
    finds_step_route hx .preceding (by decide), finds_step_route hx .self (by decide),
    finds_step_route hx .descendant (by decide), finds_step_route hx .following (by decide),
    hancestor, hsurround, ?_⟩
  rw [hsurround]
  exact append_above_perm hx

/-- `\x7b"a": [1, \x7b"b": null\x7d, 2], "c": []\x7d`. -/
def nested : Value :=
  .object [("a", .array [.number (.ofNat 1), .object [("b", .null)], .number (.ofNat 2)]),
    ("c", .array [])]

/-- The object with the key `b`. -/
def innerObject : Place Node :=
  ((Place.root (.root nested)).child 0 (.value (some "a")
    (.array [.number (.ofNat 1), .object [("b", .null)], .number (.ofNat 2)]))).child 1
      (.value none (.object [("b", .null)]))

theorem axes_partition_innerObject :
    innerObject ∈ places nested ∧ innerObject.above.map Place.number? = [some 1, some 0]
    ∧ ∃ preceding self descendant following : List (Place Node),
      Finds (((((Path.empty.step .child "*").nth 1).step .child "*").nth 2).step .preceding
        "node()") nested preceding
      ∧ Finds (((((Path.empty.step .child "*").nth 1).step .child "*").nth 2).step .following
        "node()") nested following
      ∧ (preceding ++ self ++ descendant ++ following).map Place.number?
        = [some 2, some 3, some 4, some 5, some 6] := by
  have hmem : innerObject ∈ places nested := List.mem_of_getElem? (i := 3) rfl
  obtain ⟨-, ⟨preceding, self, descendant, following, hpreceding, -, -, hfollowing, -, haround, -⟩,
    -⟩ := axes_partition hmem
  refine ⟨hmem, rfl, preceding, self, descendant, following, hpreceding, hfollowing, ?_⟩
  rw [haround]
  -- the two values above are taken out, and the numbers of the others are left to be computed
  simp only [places, placesBelow, placesOfMembers, placesOfElements, nested, innerObject,
    Place.above, Place.child]
  simp
  exact ⟨rfl, rfl, rfl, rfl, rfl⟩

end Document

end JsonAxes
