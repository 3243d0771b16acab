import JsonAxes.Proofs.Path.Grammar
import JsonAxes.Proofs.Query.Return

/-!
# Double slashes and descendants

A double slash goes through the descendant-or-self axis and asks for the children of all that is met
there (`Surface.Separator.expansion`). The descendant axis asks for the same nodes in pre-order.
From each place that a path finds in a document, a double slash before a test finds the places that
the descendant axis finds for the test, and each of them once, but in general in another order
(`Document.finds_deep`): it lists the children of a place before what lies below the first of them.
-/

set_option autoImplicit false

namespace JsonAxes

universe u

variable {N : Type u} {T : Tree N}

/-! ## Steps without a position -/

/-- A step that spells nothing but an axis of nodes and a test leads to what passes the test along
the axis. -/
theorem Step.selected_of_spelled {names : NameTable} {steps : List Step} {s : Step} {axis : Axis}
    {t : SpelledTest} (h : names.Serves steps) (hs : s ∈ steps)
    (hspelled : s.spelled names = ⟨axis, t, none⟩) (haxis : axis ≠ .attributes) (p : Place N) :
    s.selected T names p = (p.along T .empty .node axis).filter (t.passes T) := by
  obtain ⟨hsaxis, htest, hposition⟩ := SpelledStep.mk.inj hspelled
  have hpasses : s.test.passes T names = t.passes T := by
    funext q
    rw [h.passes hs, htest]
  have halong : p.along T names s.test axis = p.along T .empty .node axis := by
    cases axis with
    | attributes => exact absurd rfl haxis
    | _ => rfl
  rw [selected, hsaxis, hposition, hpasses, halong, atPosition]

namespace Path

/-- The path of one step on an axis, without a position. -/
def oneStep (axis : Axis) (t : SpelledTest) : Path := ofSpelled false [⟨axis, t, none⟩]

/-- The path that a double slash before a test stands for. -/
def deep (t : SpelledTest) : Path :=
  ofSpelled false (Surface.Separator.deep.expansion ++ [⟨.child, t, none⟩])

theorem deep_eq_join (t : SpelledTest) :
    deep t = (oneStep .descendantOrSelf .node).join (oneStep .child t) := by
  rw [join, oneStep, oneStep, spelled_ofSpelled, spelled_ofSpelled, absolute_ofSpelled]
  rfl

theorem isSpelled_oneStep (axis : Axis) (t : SpelledTest) : (oneStep axis t).IsSpelled :=
  isSpelled_ofSpelled _ _

theorem isSpelled_deep (t : SpelledTest) : (deep t).IsSpelled := isSpelled_ofSpelled _ _

/-- The axes of a path put together from what it spells. -/
theorem map_axis_ofSpelled (absolute : Bool) (ss : List SpelledStep) :
    (ofSpelled absolute ss).steps.map Step.axis = ss.map SpelledStep.axis := by
  calc (ofSpelled absolute ss).steps.map Step.axis
      = (ofSpelled absolute ss).spelled.map SpelledStep.axis := by
        rw [spelled, List.map_map]
        rfl
    _ = ss.map SpelledStep.axis := by rw [spelled_ofSpelled]

/-- A tree has the axes of a path if it has those that the path spells. -/
theorem supports_ofSpelled {absolute : Bool} {ss : List SpelledStep}
    (h : ∀ s ∈ ss, T.supports s.axis = true) :
    ∀ s ∈ (ofSpelled absolute ss).steps, T.supports s.axis = true := by
  intro s hs
  have hmem : s.axis ∈ ss.map SpelledStep.axis :=
    map_axis_ofSpelled absolute ss ▸ List.mem_map_of_mem hs
  obtain ⟨s', hs', haxis⟩ := List.mem_map.mp hmem
  exact haxis ▸ h s' hs'

theorem evalSteps_oneStep {axis : Axis} (haxis : axis ≠ .attributes) (t : SpelledTest)
    (p : Place N) :
    evalSteps T (oneStep axis t).names (oneStep axis t).steps p
      = (p.along T .empty .node axis).filter (t.passes T) := by
  have hspelled : (oneStep axis t).spelled = [⟨axis, t, none⟩] := spelled_ofSpelled _ _
  obtain ⟨s, hsteps, hs⟩ := List.map_eq_singleton_iff.mp hspelled
  have hserves := (isSpelled_oneStep axis t).serves
  rw [hsteps] at hserves ⊢
  rw [evalSteps_singleton, Step.selected_of_spelled hserves List.mem_cons_self hs haxis]

/-- A double slash before a test leads to those children of all that is met on the walk down that
pass the test. -/
theorem evalSteps_deep (t : SpelledTest) (p : Place N) :
    evalSteps T (deep t).names (deep t).steps p
      = ((p.subtree T).flatMap (Place.childPlaces T)).filter (t.passes T) := by
  have hall : (p.subtree T).filter (SpelledTest.node.passes T) = p.subtree T :=
    List.filter_eq_self.mpr fun _ _ => rfl
  have hchild : evalSteps T (oneStep .child t).names (oneStep .child t).steps
      = fun q => (q.childPlaces T).filter (t.passes T) :=
    funext (evalSteps_oneStep (by decide) t)
  rw [deep_eq_join, evalSteps_join (isSpelled_oneStep _ _) (isSpelled_oneStep _ _), hchild,
    evalSteps_oneStep (by decide), Place.along, hall, List.filter_flatMap]

/-- A double slash and a test behind written steps stand for the double slash's path behind what
the steps stand for. -/
theorem standFor_append_deep {P : Path} {steps : List (Surface.Separator × Surface.WrittenStep)}
    {test : Surface.Test} {t : SpelledTest} (hsteps : Surface.StandFor steps P.spelled)
    (ht : test.StandsFor t) :
    Surface.StandFor (steps ++ [(.deep, .child test [])]) (P.join (deep t)).spelled := by
  have hstep : Surface.StandFor [(.deep, .child test [])] (deep t).spelled := by
    rw [deep, spelled_ofSpelled]
    exact .cons .deep (.child ht none) .nil
  rw [join, spelled_ofSpelled]
  generalize P.spelled = spelled at hsteps
  induction hsteps with
  | nil => exact hstep
  | cons s hfirst _ ih =>
      rw [List.append_assoc, List.cons_append]
      exact .cons s hfirst ih

end Path

/-! ## Grounded trees -/

namespace Query

variable {P Q : Path} {start : N}

/-- On a grounded start a query finds what its path means, if that comes upon no fault. -/
theorem finds_root_iff (hT : T.Grounded start) {xs : List (Place N)} :
    Finds T P (.root start) xs
      ↔ Path.faultIn? T P.names P.steps (.root start) = none
        ∧ Path.evalSteps T P.names P.steps (.root start) = xs :=
  exhausted_iff hT

/-- Behind a path that finds some places, steps on axes that the tree has find what they mean from
each of the places, one after the other. -/
theorem finds_join (hT : T.Grounded start) (hP : P.IsSpelled) (hQ : Q.IsSpelled)
    (hsupports : ∀ s ∈ Q.steps, T.supports s.axis = true) {xs : List (Place N)}
    (hxs : Finds T P (.root start) xs) :
    Finds T (P.join Q) (.root start) (xs.flatMap (Path.evalSteps T Q.names Q.steps)) := by
  obtain ⟨hfault, rfl⟩ := (finds_root_iff hT).mp hxs
  refine (finds_root_iff hT).mpr ⟨?_, Path.evalSteps_join hP hQ _⟩
  exact Path.faultIn?_join hP hfault hsupports

/-- From each of the places, too, they find what they mean. -/
theorem finds_of_mem (hT : T.Grounded start)
    (hsupports : ∀ s ∈ Q.steps, T.supports s.axis = true) {xs : List (Place N)}
    (hxs : Finds T P (.root start) xs) {x : Place N} (hx : x ∈ xs) :
    Finds T Q x (Path.evalSteps T Q.names Q.steps x) :=
  finds_of_follows (Search.follows hT Q.steps) hsupports (reaches_of_finds hxs x hx)

end Query

/-! ## Descendants -/

/-- Whether, for a test, a double slash leads from a place to some places, the descendant axis to
some that are the same in whichever order, namely once to everything below that passes the test, and
the descendant-or-self axis to these behind the place itself if that passes. -/
structure Place.LeadsDeep (T : Tree N) (t : SpelledTest) (x : Place N)
    (deep below self : List (Place N)) : Prop where
  finds_deep : Query.Finds T (Path.deep t) x deep
  finds_below : Query.Finds T (Path.oneStep .descendant t) x below
  finds_self : Query.Finds T (Path.oneStep .descendantOrSelf t) x self
  perm : deep.Perm below
  nodup : below.Nodup
  mem_iff : ∀ y, y ∈ below ↔ y.IsBelow T x ∧ t.passes T y = true
  self_eq : self = (if t.passes T x then [x] else []) ++ below

namespace Document

variable {P : Path} {v : Value} {xs : List (Place Node)}

theorem supports_deep (t : SpelledTest) :
    ∀ s ∈ (Path.deep t).steps, Node.tree.supports s.axis = true :=
  Path.supports_ofSpelled (List.forall_mem_cons.mpr ⟨rfl, List.forall_mem_singleton.mpr rfl⟩)

theorem supports_oneStep {axis : Axis} (haxis : axis ≠ .namespaces) (t : SpelledTest) :
    ∀ s ∈ (Path.oneStep axis t).steps, Node.tree.supports s.axis = true := by
  refine Path.supports_ofSpelled (List.forall_mem_singleton.mpr ?_)
  cases axis with
  | namespaces => exact absurd rfl haxis
  | _ => rfl

/-- From each place that a path finds, a double slash and the two axes lead to what passes the test
among the children of all that is met below, among what lies below, and among all that is met. -/
theorem leadsDeep (t : SpelledTest) (hxs : Query.Finds Node.tree P (.root (.root v)) xs)
    {x : Place Node} (hx : x ∈ xs) :
    x.LeadsDeep Node.tree t
      (((x.subtree Node.tree).flatMap (Place.childPlaces Node.tree)).filter (t.passes Node.tree))
      ((x.descendants Node.tree).filter (t.passes Node.tree))
      ((x.subtree Node.tree).filter (t.passes Node.tree)) := by
  have hends : Node.tree.EndsBelow x.node := Node.endsBelow x.node
  have hsubtree : x.subtree Node.tree = [x] ++ x.descendants Node.tree := Place.subtree_eq hends
  have hnodup : (x.descendants Node.tree).Nodup := by
    have hall := Place.nodup_subtree hends
    rw [hsubtree] at hall
    exact hall.of_append_right
  have hgrounded := Node.grounded (.root v)
  have hdeep := Query.finds_of_mem hgrounded (supports_deep t) hxs hx
  have hbelow := Query.finds_of_mem hgrounded
    (supports_oneStep (show Axis.descendant ≠ .namespaces by decide) t) hxs hx
  have hself := Query.finds_of_mem hgrounded
    (supports_oneStep (show Axis.descendantOrSelf ≠ .namespaces by decide) t) hxs hx
  rw [Path.evalSteps_deep] at hdeep
  rw [Path.evalSteps_oneStep (by decide)] at hbelow hself
  exact {
    finds_deep := hdeep
    finds_below := hbelow
    finds_self := hself
    perm := (Place.flatMap_childPlaces_perm hends).filter _
    nodup := hnodup.filter _
    mem_iff := fun y => by rw [List.mem_filter, Place.mem_descendants_iff hends]
    self_eq := by rw [hsubtree, List.filter_append, List.filter_singleton, Bool.cond_eq_ite] }

/-- `\x7b"a": \x7b"name": 1\x7d, "name": 2\x7d`. -/
def namedTwice : Value :=
  .object [("a", .object [("name", .number (.ofNat 1))]), ("name", .number (.ofNat 2))]

/-- A double slash finds the outer of the two names first. -/
theorem exists_leadsDeep_ne :
    ∃ deep below self : List (Place Node),
      (Place.root (.root namedTwice)).LeadsDeep Node.tree (.name "name") deep below self
      ∧ deep.map Place.number? = [some 3, some 2] ∧ below.map Place.number? = [some 2, some 3] := by
  have hroot : Query.Finds Node.tree .empty (.root (.root namedTwice))
      [.root (.root namedTwice)] := Query.finds_of_run (n := 2) rfl
  refine ⟨_, _, _, leadsDeep (.name "name") hroot List.mem_cons_self, ?_, ?_⟩
  · rw [subtree_root]
    rfl
  · rw [descendants_root]
    rfl

/-- **A double slash leads to what the descendant axis leads to.** Let a path find some places in a
document. From each of them for itself, what a double slash before a test stands for and the
descendant axis with this test find the same places, each of them once: all that pass the test and
lie below. On the descendant-or-self axis stand the place itself, if it passes the test, and behind
it what stands on the descendant axis. Written behind the path, each finds all of this, one place
after the other. The order of the places behind a double slash is its own. -/
theorem finds_deep (hP : P.Made) (t : SpelledTest)
    (hxs : Query.Finds Node.tree P (.root (.root v)) xs) :
    (∀ steps test, Surface.StandFor steps P.spelled → test.StandsFor t →
      Surface.StandFor (steps ++ [(.deep, .child test [])]) (P.join (Path.deep t)).spelled)
    ∧ (∃ deep below self : Place Node → List (Place Node),
      (∀ x ∈ xs, x.LeadsDeep Node.tree t (deep x) (below x) (self x))
      ∧ Query.Finds Node.tree (P.join (Path.deep t)) (.root (.root v)) (xs.flatMap deep)
      ∧ Query.Finds Node.tree (P.join (Path.oneStep .descendant t)) (.root (.root v))
          (xs.flatMap below)
      ∧ Query.Finds Node.tree (P.join (Path.oneStep .descendantOrSelf t)) (.root (.root v))
          (xs.flatMap self))
    ∧ ∃ (w : Value) (u : SpelledTest) (deep below self : List (Place Node)),
      (Place.root (.root w)).LeadsDeep Node.tree u deep below self ∧ deep ≠ below := by
  have hgrounded := Node.grounded (.root v)
  refine ⟨fun steps test => Path.standFor_append_deep,
    ⟨_, _, _, fun x hx => leadsDeep t hxs hx, ?_, ?_, ?_⟩, ?_⟩
  · have hjoin := Query.finds_join hgrounded hP.isSpelled (Path.isSpelled_deep t)
      (supports_deep t) hxs
    rwa [funext (Path.evalSteps_deep t)] at hjoin
  · have hjoin := Query.finds_join hgrounded hP.isSpelled (Path.isSpelled_oneStep .descendant t)
      (supports_oneStep (by decide) t) hxs
    rwa [funext (Path.evalSteps_oneStep (by decide) t)] at hjoin
  · have hjoin := Query.finds_join hgrounded hP.isSpelled
      (Path.isSpelled_oneStep .descendantOrSelf t) (supports_oneStep (by decide) t) hxs
    rwa [funext (Path.evalSteps_oneStep (by decide) t)] at hjoin
  · obtain ⟨deep, below, self, hleads, hdeep, hbelow⟩ := exists_leadsDeep_ne
    refine ⟨namedTwice, .name "name", deep, below, self, hleads, fun heq => ?_⟩
    rw [heq, hbelow] at hdeep
    exact absurd hdeep (by decide)

/-- All values of the document as contexts, of which two have a name below them. -/
theorem finds_deep_namedTwice :
    let P := Path.empty.step .descendantOrSelf "*"
    let t : SpelledTest := .name "name"
    let inner : Place Node := (Place.root (.root namedTwice)).child 0
      (.value (some "a") (.object [("name", .number (.ofNat 1))]))
    (P.Made ∧ Query.Finds Node.tree P (.root (.root namedTwice)) (places namedTwice)
      ∧ inner ∈ places namedTwice)
    ∧ ∃ deep below self : Place Node → List (Place Node),
      inner.LeadsDeep Node.tree t (deep inner) (below inner) (self inner)
      ∧ Query.Finds Node.tree (P.join (Path.deep t)) (.root (.root namedTwice))
          ((places namedTwice).flatMap deep) := by
  intro P t inner
  have hP : P.Made := Path.Made.empty.step .descendantOrSelf "*"
  have hxs : Query.Finds Node.tree P (.root (.root namedTwice)) (places namedTwice) :=
    Query.finds_of_run (n := 40) rfl
  have hinner : inner ∈ places namedTwice := List.mem_of_getElem? (i := 1) rfl
  obtain ⟨-, ⟨deep, below, self, hleads, hdeep, -⟩, -⟩ := finds_deep hP t hxs
  exact ⟨⟨hP, hxs, hinner⟩, deep, below, self, hleads inner hinner, hdeep⟩

end Document

end JsonAxes
