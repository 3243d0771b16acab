import JsonAxes.Proofs.Query.DocumentOrder
import JsonAxes.Proofs.Query.Spelled
import JsonAxes.Proofs.Tree.Consistent

/-!
# Paths behind paths

A path joined of two (`Path.join`) selects from a node what its second part leads to from each place
that its first part leads to. There the places have routes, and a query for the second part alone
that starts at one of the nodes knows nothing of them. On axes that do not show the difference
(`Tree.Mirrors`) both lead to the same nodes, so that a joined path selects what its parts select
one after the other (`Query.selects_join`). In every document these are the axes that go down
(`Document.selects_downward`); in a consistent tree, for places reached through children, they are
also those that go up (`Query.selects_vertical`).
-/

set_option autoImplicit false

namespace JsonAxes

universe u

variable {N : Type u} {T : Tree N}

/-! ## What a query selects -/

/-- Whether a query for a path from a node, run without a limit, comes to its end with some nodes,
one behind the other and without an error. -/
def Query.Selects (T : Tree N) (path : Path) (start : N) (nodes : List N) : Prop :=
  ∃ matched : List (Place N), matched.map Place.node = nodes
    ∧ ∃ n, ∀ m, n ≤ m → (Query.start T path start none).run m = ⟨matched, .exhausted⟩

/-- From a grounded start a query comes to its end with some matches if these are what its path
means and the path comes upon no fault. -/
theorem Query.exhausted_iff {path : Path} {start : N} (hT : T.Grounded start)
    {matched : List (Place N)} :
    (∃ n, ∀ m, n ≤ m → (Query.start T path start none).run m = ⟨matched, .exhausted⟩)
      ↔ Path.faultIn? T path.names path.steps (.root start) = none
        ∧ Path.evalSteps T path.names path.steps (.root start) = matched := by
  obtain ⟨n, hn⟩ := exists_run_eq_answers path hT
  constructor
  · rintro ⟨k, hk⟩
    have hanswers : path.answers T start = ⟨matched, .exhausted⟩ := by
      rw [← hn (max n k) (Nat.le_max_left n k), hk (max n k) (Nat.le_max_right n k)]
    rw [Path.answers, Path.answersFrom, Answers.mk.injEq] at hanswers
    obtain ⟨hmatched, hending⟩ := hanswers
    refine ⟨?_, hmatched⟩
    cases hfault : Path.faultIn? T path.names path.steps (.root start) with
    | none => rfl
    | some axis =>
        rw [hfault] at hending
        cases hending
  · rintro ⟨hfault, rfl⟩
    refine ⟨n, fun m hm => ?_⟩
    rw [hn m hm, Path.answers, Path.answersFrom, hfault, Path.endingOf]

theorem Query.selects_iff {path : Path} {start : N} (hT : T.Grounded start) {nodes : List N} :
    Query.Selects T path start nodes
      ↔ Path.faultIn? T path.names path.steps (.root start) = none
        ∧ (Path.evalSteps T path.names path.steps (.root start)).map Place.node = nodes := by
  constructor
  · rintro ⟨matched, rfl, h⟩
    obtain ⟨hfault, rfl⟩ := (exhausted_iff hT).mp h
    exact ⟨hfault, rfl⟩
  · rintro ⟨hfault, rfl⟩
    exact ⟨_, rfl, (exhausted_iff hT).mpr ⟨hfault, rfl⟩⟩

/-- A run that comes to the end of its query shows what the query selects. -/
theorem Query.selects_of_run {path : Path} {start : N} {n : Nat} {matched : List (Place N)}
    (h : (Query.start T path start none).run n = ⟨matched, .exhausted⟩) :
    Query.Selects T path start (matched.map Place.node) := by
  refine ⟨matched, rfl, n, fun m hm => ?_⟩
  have hended : ((Query.start T path start none).run n).ending ≠ .unfinished := by
    rw [h]
    exact nofun
  exact (run_eq_of_le hended hm).trans h

/-! ## Joined paths -/

namespace Path

variable {P Q : Path}

/-- The path of the steps of one path and then those of another. A path of these steps that is made
in another way is the same, as every path is put together from what it spells (`Made.isSpelled`). -/
def join (P Q : Path) : Path := ofSpelled P.absolute (P.spelled ++ Q.spelled)

/-- The steps of a joined path fall into those that spell its first part and those that spell its
second, both by the names of its own table. -/
theorem exists_split_join (P Q : Path) :
    ∃ front behind, (P.join Q).steps = front ++ behind
      ∧ ((P.join Q).names.Serves front
        ∧ front.map (Step.spelled (P.join Q).names) = P.spelled)
      ∧ (P.join Q).names.Serves behind
        ∧ behind.map (Step.spelled (P.join Q).names) = Q.spelled := by
  have hspelled : (P.join Q).spelled = P.spelled ++ Q.spelled := spelled_ofSpelled _ _
  obtain ⟨front, behind, hsteps, hfront, hbehind⟩ := List.map_eq_append_iff.mp hspelled
  have hserves : (P.join Q).names.Serves (P.join Q).steps := (isSpelled_ofSpelled _ _).serves
  rw [hsteps] at hserves
  exact ⟨front, behind, hsteps, ⟨hserves.mono (List.subset_append_left _ _), hfront⟩,
    hserves.mono (List.subset_append_right _ _), hbehind⟩

/-- A joined path leads to what its second part leads to from each place that the first leads to. -/
theorem evalSteps_join (hP : P.IsSpelled) (hQ : Q.IsSpelled) (p : Place N) :
    evalSteps T (P.join Q).names (P.join Q).steps p
      = (evalSteps T P.names P.steps p).flatMap (evalSteps T Q.names Q.steps) := by
  obtain ⟨front, behind, hsteps, ⟨hservesFront, hfront⟩, hservesBehind, hbehind⟩ :=
    exists_split_join P Q
  have hfront' : evalSteps T (P.join Q).names front = evalSteps T P.names P.steps :=
    funext (evalSteps_congr hP.serves hservesFront hfront)
  have hbehind' : evalSteps T (P.join Q).names behind = evalSteps T Q.names Q.steps :=
    funext (evalSteps_congr hQ.serves hservesBehind hbehind)
  rw [hsteps, evalSteps_append, hfront', hbehind']

theorem faultIn?_eq_none_of_supports {names : NameTable} {steps : List Step}
    (h : ∀ s ∈ steps, T.supports s.axis = true) (p : Place N) :
    faultIn? T names steps p = none := by
  cases hfault : faultIn? T names steps p with
  | none => rfl
  | some axis =>
      obtain ⟨s, hs, hnot⟩ := exists_not_supports_of_faultIn? hfault
      rw [h s hs] at hnot
      cases hnot

/-- Steps on axes that the tree has bring no fault behind steps that come upon none. -/
theorem faultIn?_append_eq_none {names : NameTable} {front behind : List Step} {p : Place N}
    (hfront : faultIn? T names front p = none)
    (hbehind : ∀ s ∈ behind, T.supports s.axis = true) :
    faultIn? T names (front ++ behind) p = none := by
  induction front generalizing p with
  | nil => exact faultIn?_eq_none_of_supports hbehind p
  | cons s front ih =>
      rw [faultIn?] at hfront
      rw [List.cons_append, faultIn?]
      split at hfront
      · next hs =>
        rw [if_pos hs, List.findSome?_eq_none_iff]
        exact fun q hq => ih (List.findSome?_eq_none_iff.mp hfront q hq)
      · cases hfront

theorem faultIn?_join (hP : P.IsSpelled) {p : Place N}
    (hfault : faultIn? T P.names P.steps p = none)
    (hsupports : ∀ s ∈ Q.steps, T.supports s.axis = true) :
    faultIn? T (P.join Q).names (P.join Q).steps p = none := by
  obtain ⟨front, behind, hsteps, ⟨hserves, hfront⟩, -, hbehind⟩ := exists_split_join P Q
  rw [hsteps]
  refine faultIn?_append_eq_none ?_ fun s hs => ?_
  · rw [← hfault]
    exact faultIn?_congr hP.serves hserves hfront p
  · obtain ⟨t, ht, haxis⟩ := Step.exists_axis_eq hbehind hs
    rw [← haxis]
    exact hsupports t ht

end Path

/-! ## Places between which axes make no difference -/

/-- Whether related places have the same node, and along some axes there are related places, one by
one. -/
structure Tree.Mirrors (T : Tree N) (R : Place N → Place N → Prop) (axes : List Axis) : Prop where
  sameNode : ∀ {p q}, R p q → p.SameNode q
  along : ∀ {p q}, R p q → ∀ axis ∈ axes, ∀ names test,
    List.Forall₂ R (p.along T names test axis) (q.along T names test axis)

theorem forall₂_atPosition {α : Type u} {R : α → α → Prop} (position? : Option Nat)
    {as bs : List α} (h : List.Forall₂ R as bs) :
    List.Forall₂ R (atPosition position? as) (atPosition position? bs) := by
  cases position? with
  | none => exact h
  | some position =>
      cases position with
      | zero => exact .nil
      | succ n =>
          show List.Forall₂ R as[n]?.toList bs[n]?.toList
          induction h generalizing n with
          | nil => exact .nil
          | cons hab _ ih =>
              cases n with
              | zero => exact .cons hab .nil
              | succ n =>
                  rw [List.getElem?_cons_succ, List.getElem?_cons_succ]
                  exact ih n

theorem mem_of_mem_atPosition {α : Type u} {position? : Option Nat} {l : List α} {a : α}
    (h : a ∈ atPosition position? l) : a ∈ l := by
  match position? with
  | none => exact h
  | some 0 => cases h
  | some (n + 1) => exact List.mem_of_getElem? (Option.mem_toList.mp h)

namespace Tree.Mirrors

variable {R : Place N → Place N → Prop} {axes : List Axis} {names : NameTable} {p q : Place N}

theorem passes_eq (hR : T.Mirrors R axes) (h : R p q) (test : NodeTest) :
    test.passes T names p = test.passes T names q := by
  cases test with
  | wildcard => rfl
  | node => rfl
  | name id =>
      have hnode : p.node = q.node := hR.sameNode h
      simp only [NodeTest.passes, hnode]

/-- A step leads from related places to related places, whatever its test and its position. -/
theorem selected (hR : T.Mirrors R axes) (h : R p q) {s : Step} (hs : s.axis ∈ axes) :
    List.Forall₂ R (s.selected T names p) (s.selected T names q) := by
  have hpassed : List.Forall₂ R
      ((p.along T names s.test s.axis).filter (s.test.passes T names))
      ((q.along T names s.test s.axis).filter (s.test.passes T names)) := by
    refine List.rel_filter (fun a b hab => ?_) (hR.along h s.axis hs names s.test)
    show s.test.passes T names a = true ↔ s.test.passes T names b = true
    rw [hR.passes_eq hab]
  exact forall₂_atPosition s.position? hpassed

/-- Steps along such axes lead from related places to related places. -/
theorem evalSteps (hR : T.Mirrors R axes) {steps : List Step} (hs : ∀ s ∈ steps, s.axis ∈ axes)
    (h : R p q) :
    List.Forall₂ R (Path.evalSteps T names steps p) (Path.evalSteps T names steps q) := by
  induction steps generalizing p q with
  | nil => exact .cons h .nil
  | cons s rest ih =>
      have hselected : List.Forall₂ R (s.selected T names p) (s.selected T names q) :=
        hR.selected h (hs s List.mem_cons_self)
      exact List.rel_flatMap hselected fun a b hab =>
        ih (fun t ht => hs t (List.mem_cons_of_mem s ht)) hab

theorem map_node_evalSteps (hR : T.Mirrors R axes) (names : NameTable) {steps : List Step}
    (hs : ∀ s ∈ steps, s.axis ∈ axes) (h : R p q) :
    (Path.evalSteps T names steps p).map Place.node
      = (Path.evalSteps T names steps q).map Place.node := by
  have hsame : List.Forall₂ Place.SameNode (Path.evalSteps T names steps p)
      (Path.evalSteps T names steps q) := (hR.evalSteps hs h).imp fun _ _ => hR.sameNode
  rw [← List.forall₂_eq_eq_eq, List.forall₂_map_left_iff, List.forall₂_map_right_iff]
  exact hsame

end Tree.Mirrors

namespace Query

/-- **A joined path selects what its parts select one after the other**, if the axes of the second
part make no difference between the places that the first part leads to and their nodes as
starts. -/
theorem selects_join {P Q : Path} (hP : P.Made) (hQ : Q.Made) {R : Place N → Place N → Prop}
    {axes : List Axis} (hR : T.Mirrors R axes) (hQaxes : ∀ s ∈ Q.steps, s.axis ∈ axes)
    (hsupports : ∀ s ∈ Q.steps, T.supports s.axis = true) (hT : ∀ n, T.Grounded n) {start : N}
    (hstart : ∀ p ∈ Path.evalSteps T P.names P.steps (.root start), R p (.root p.node))
    {xs : List N} (hxs : Selects T P start xs) :
    ∃ yss, List.Forall₂ (Selects T Q) xs yss ∧ Selects T (P.join Q) start yss.flatten := by
  obtain ⟨hfault, rfl⟩ := (selects_iff (hT start)).mp hxs
  let found (p : Place N) : List N := (Path.evalSteps T Q.names Q.steps p).map Place.node
  refine ⟨(Path.evalSteps T P.names P.steps (.root start)).map found, ?_, ?_⟩
  · rw [List.forall₂_map_left_iff, List.forall₂_map_right_iff]
    refine List.forall₂_same.mpr fun p hp => ?_
    refine (selects_iff (hT p.node)).mpr ⟨Path.faultIn?_eq_none_of_supports hsupports _, ?_⟩
    exact (hR.map_node_evalSteps Q.names hQaxes (hstart p hp)).symm
  · refine (selects_iff (hT start)).mpr ⟨Path.faultIn?_join hP.isSpelled hfault hsupports, ?_⟩
    rw [Path.evalSteps_join hP.isSpelled hQ.isSpelled, List.map_flatMap, List.flatMap_def]

end Query

/-! ## Down from a place -/

/-- The axes that lead down, and those that lead nowhere else. -/
def Axis.downward : List Axis := [.self, .child, .descendant, .descendantOrSelf, .attributes]

/-- What lies down from a place depends on its node alone. -/
theorem Tree.mirrors_downward (hends : ∀ n, T.EndsBelow n) :
    T.Mirrors Place.SameNode Axis.downward where
  sameNode h := h
  along {p q} h axis haxis names test := by
    have hnode : q.node = p.node := Eq.symm h
    cases axis with
    | self => exact .cons h .nil
    | child => exact Place.forall₂_childPlaces h
    | descendant => exact Place.forall₂_descendants hends h
    | descendantOrSelf => exact Place.forall₂_subtree (hends p.node) h
    | attributes =>
        rw [Place.along, Place.along]
        split
        · have hattributes : test.attributeNames T names q = test.attributeNames T names p := by
            cases test <;> simp only [NodeTest.attributeNames, hnode]
          have hkeys : List.Forall₂ Eq (test.attributeNames T names p)
              (test.attributeNames T names p) := List.forall₂_same.mpr fun _ _ => rfl
          rw [Place.attributePlaces, Place.attributePlaces, hattributes, hnode]
          refine List.rel_flatMap hkeys fun key key' hkey => ?_
          rw [hkey, List.forall₂_map_left_iff, List.forall₂_map_right_iff]
          exact List.forall₂_same.mpr fun _ _ => rfl
        · exact .nil
    | _ => exact absurd haxis (by decide)

/-- **Paths that lead down can be evaluated one behind the other.** In a document, let a path select
some nodes, and let the axes of a second path lead down. From each of the nodes as a start of its
own, the second path selects something, and the path joined of both selects all of this, in the
order of the nodes: also where these are attributes, lie within each other or come repeatedly. -/
theorem Document.selects_downward {P Q : Path} (hP : P.Made) (hQ : Q.Made)
    (hdown : ∀ s ∈ Q.steps, s.axis ∈ Axis.downward) {v : Value} {xs : List Node}
    (hxs : Query.Selects Node.tree P (.root v) xs) :
    ∃ yss, List.Forall₂ (Query.Selects Node.tree Q) xs yss
      ∧ Query.Selects Node.tree (P.join Q) (.root v) yss.flatten := by
  refine Query.selects_join hP hQ (Tree.mirrors_downward Node.endsBelow) hdown ?_
    Node.grounded (fun p _ => rfl) hxs
  intro s hs
  have haxis := hdown s hs
  cases hs' : s.axis with
  | namespaces =>
      rw [hs'] at haxis
      exact absurd haxis (by decide)
  | _ => rfl

/-- `[[1, [2]], 3]`. -/
def Document.rows : Value :=
  .array [.array [.number (.ofNat 1), .array [.number (.ofNat 2)]], .number (.ofNat 3)]

/-- From every array of the document, which lie within each other, the sizes of the arrays in it. -/
theorem Document.selects_downward_rows :
    let P := Path.empty.step .descendantOrSelf "array"
    let Q := (Path.empty.step .descendantOrSelf "*").step .attributes "size"
    let two : Value := .array [.number (.ofNat 2)]
    let row : Value := .array [.number (.ofNat 1), two]
    let xs : List Node := [.root rows, .value none row, .value none two]
    (P.Made ∧ Q.Made ∧ (∀ s ∈ Q.steps, s.axis ∈ Axis.downward)
      ∧ Query.Selects Node.tree P (.root rows) xs)
    ∧ ∃ yss, List.Forall₂ (Query.Selects Node.tree Q) xs yss
      ∧ Query.Selects Node.tree (P.join Q) (.root rows) yss.flatten := by
  intro P Q two row xs
  have hP : P.Made := Path.Made.empty.step .descendantOrSelf "array"
  have hQ : Q.Made := (Path.Made.empty.step .descendantOrSelf "*").step .attributes "size"
  have hdown : ∀ s ∈ Q.steps, s.axis ∈ Axis.downward := by decide
  have hrun : (Query.start Node.tree P (.root rows) none).run 40
      = ⟨((Query.start Node.tree P (.root rows) none).run 40).matched, .exhausted⟩ := rfl
  have hxs : Query.Selects Node.tree P (.root rows) xs := Query.selects_of_run hrun
  exact ⟨⟨hP, hQ, hdown, hxs⟩, selects_downward hP hQ hdown hxs⟩

/-! ## Up and down in a consistent tree -/

/-- The axes that lead straight up or down, and those that lead nowhere else. -/
def Axis.vertical : List Axis :=
  [.self, .child, .descendant, .descendantOrSelf, .parent, .ancestor, .ancestorOrSelf]

theorem Axis.ne_of_mem_vertical : ∀ axis ∈ vertical, axis ≠ .attributes ∧ axis ≠ .namespaces := by
  decide

namespace Place

/-- Off the attribute axis, a place that was reached through children leads to such places. -/
theorem Descends.of_mem_along (hT : T.IsConsistent) {names : NameTable} {test : NodeTest}
    {p q : Place N} {axis : Axis} (haxis : axis ≠ .attributes) (hp : p.Descends T)
    (hq : q ∈ p.along T names test axis) : q.Descends T := by
  have hbelow := hT.isFinite.endsBelow
  have habove := hT.endsAbove p
  cases axis with
  | self => exact List.mem_singleton.mp hq ▸ hp
  | child => exact hp.of_mem_childPlaces hq
  | descendant => exact hp.of_mem_descendants hbelow hq
  | descendantOrSelf => exact hp.of_mem_subtree (hbelow p.node) hq
  | parent => exact hp.of_up? (Option.mem_toList.mp hq)
  | ancestor => exact hp.of_mem_ancestors habove hq
  | ancestorOrSelf => exact hp.of_mem_ancestorsOrSelf habove hq
  | followingSibling => exact hp.of_mem_siblings (fun i => List.drop_subset (i + 1)) hq
  | precedingSibling => exact hp.of_mem_siblings List.take_subset hq
  | following =>
      obtain ⟨above, ha, hq⟩ := List.mem_flatMap.mp hq
      obtain ⟨sibling, hs, hq⟩ := List.mem_flatMap.mp hq
      exact hp.of_mem_siblingSubtrees hbelow habove (fun i => List.drop_subset (i + 1)) ha hs hq
  | preceding =>
      obtain ⟨above, ha, hq⟩ := List.mem_flatMap.mp hq
      obtain ⟨sibling, hs, hq⟩ := List.mem_flatMap.mp hq
      exact hp.of_mem_siblingSubtrees hbelow habove List.take_subset (List.mem_reverse.mp ha) hs hq
  | attributes => exact absurd rfl haxis
  | namespaces => cases hq

/-- So do any steps. -/
theorem Descends.of_mem_evalSteps (hT : T.IsConsistent) {names : NameTable} {steps : List Step}
    (hsteps : ∀ s ∈ steps, s.axis ≠ .attributes) {p q : Place N} (hp : p.Descends T)
    (hq : q ∈ Path.evalSteps T names steps p) : q.Descends T := by
  induction steps generalizing p with
  | nil => exact List.mem_singleton.mp hq ▸ hp
  | cons s rest ih =>
      obtain ⟨r, hr, hq⟩ := List.mem_flatMap.mp hq
      have hr' : r ∈ p.along T names s.test s.axis :=
        List.mem_of_mem_filter (mem_of_mem_atPosition hr)
      have hdescends : r.Descends T := hp.of_mem_along hT (hsteps s List.mem_cons_self) hr'
      exact ih (fun t ht => hsteps t (List.mem_cons_of_mem s ht)) hdescends hq

/-- Whether two places have the same node and both were reached through children. -/
structure Twins (T : Tree N) (p q : Place N) : Prop where
  sameNode : p.SameNode q
  left : p.Descends T
  right : q.Descends T

theorem Twins.forall₂ {as bs : List (Place N)} (h : List.Forall₂ SameNode as bs)
    (has : ∀ a ∈ as, a.Descends T) (hbs : ∀ b ∈ bs, b.Descends T) :
    List.Forall₂ (Twins T) as bs := by
  induction h with
  | nil => exact .nil
  | cons hab _ ih =>
      have htwins := Twins.mk hab (has _ List.mem_cons_self) (hbs _ List.mem_cons_self)
      exact .cons htwins (ih (fun a ha => has a (List.mem_cons_of_mem _ ha))
        fun b hb => hbs b (List.mem_cons_of_mem _ hb))

end Place

/-- In a consistent tree, what lies straight up and down from a place that was reached through
children depends on its node alone. -/
theorem Tree.mirrors_vertical (hT : T.IsConsistent) :
    T.Mirrors (Place.Twins T) Axis.vertical where
  sameNode h := h.sameNode
  along {p q} h axis haxis names test := by
    obtain ⟨hattributes, -⟩ := Axis.ne_of_mem_vertical axis haxis
    refine Place.Twins.forall₂ ?_ (fun _ => h.left.of_mem_along hT hattributes)
      fun _ => h.right.of_mem_along hT hattributes
    have hancestors := Place.forall₂_ancestors hT h.left h.right h.sameNode
    cases axis with
    | self => exact .cons h.sameNode .nil
    | child => exact Place.forall₂_childPlaces h.sameNode
    | descendant => exact Place.forall₂_descendants hT.isFinite.endsBelow h.sameNode
    | descendantOrSelf => exact Place.forall₂_subtree (hT.isFinite.endsBelow p.node) h.sameNode
    | parent => exact Place.forall₂_up? hT h.left h.right h.sameNode
    | ancestor => exact hancestors
    | ancestorOrSelf => exact .cons h.sameNode hancestors
    | _ => exact absurd haxis (by decide)

namespace Query

/-- **In a consistent tree a route says what the tree's own links say.** Let a path have no step on
the attribute or namespace axis, and let the axes of a second path lead straight up or down. From
whichever start, the first path selects some nodes; from each of these as a start of its own, which
has no route, the second path selects something; and the path joined of both, which goes back up
along the routes by which it came, selects all of this in the order of the nodes. -/
theorem selects_vertical (hT : T.IsConsistent) {P Q : Path} (hP : P.Made) (hQ : Q.Made)
    (hPaxes : ∀ s ∈ P.steps, s.axis ≠ .attributes ∧ s.axis ≠ .namespaces)
    (hQaxes : ∀ s ∈ Q.steps, s.axis ∈ Axis.vertical) (start : N) :
    ∃ xs yss, Selects T P start xs ∧ List.Forall₂ (Selects T Q) xs yss
      ∧ Selects T (P.join Q) start yss.flatten := by
  have hPsupports : ∀ s ∈ P.steps, T.supports s.axis = true := fun s hs =>
    T.supports_of_ne (hPaxes s hs).1 (hPaxes s hs).2
  have hQsupports : ∀ s ∈ Q.steps, T.supports s.axis = true := by
    intro s hs
    obtain ⟨hattributes, hnamespaces⟩ := Axis.ne_of_mem_vertical s.axis (hQaxes s hs)
    exact T.supports_of_ne hattributes hnamespaces
  -- every place that the first path leads to was reached through children
  have htwins : ∀ p ∈ Path.evalSteps T P.names P.steps (.root start),
      Place.Twins T p (.root p.node) := by
    intro p hp
    have hstart : (Place.root start).Descends T := trivial
    exact ⟨rfl, hstart.of_mem_evalSteps hT (fun s hs => (hPaxes s hs).1) hp, trivial⟩
  have hxs : Selects T P start _ :=
    (selects_iff (hT.grounded start)).mpr ⟨Path.faultIn?_eq_none_of_supports hPsupports _, rfl⟩
  obtain ⟨yss, hyss, hjoined⟩ := selects_join hP hQ (Tree.mirrors_vertical hT) hQaxes hQsupports
    hT.grounded htwins hxs
  exact ⟨_, yss, hxs, hyss, hjoined⟩

end Query

/-- A root with two children, of which the first has a child and the second has two. -/
def NodeTable.family : NodeTable where
  rows := #[⟨"r", none, [1, 2], []⟩, ⟨"a", some 0, [3], []⟩, ⟨"b", some 0, [4, 5], []⟩,
    ⟨"c", some 1, [], []⟩, ⟨"d", some 2, [], []⟩, ⟨"e", some 2, [], []⟩]
  knowsParents := true
  hasAttributes := false
  hasLinks := true

/-- From the last node up, down and onwards by the tree's links, and from there up again, by the
routes or by the links. -/
theorem Query.selects_vertical_family :
    let T := NodeTable.family.tree
    let P := ((Path.empty.step .ancestor "*").step .child "*").step .following "*"
    let Q := (Path.empty.step .ancestor "*").step .child "*"
    (T.IsConsistent ∧ P.Made ∧ Q.Made
      ∧ (∀ s ∈ P.steps, s.axis ≠ .attributes ∧ s.axis ≠ .namespaces)
      ∧ ∀ s ∈ Q.steps, s.axis ∈ Axis.vertical)
    ∧ ∃ xs yss, Selects T P 5 xs ∧ List.Forall₂ (Selects T Q) xs yss
      ∧ Selects T (P.join Q) 5 yss.flatten := by
  intro T P Q
  have hT : T.IsConsistent :=
    NodeTable.isConsistent_of_lt (t := NodeTable.family) rfl (by decide) (by decide)
  have hP : P.Made := ((Path.Made.empty.step .ancestor "*").step .child "*").step .following "*"
  have hQ : Q.Made := (Path.Made.empty.step .ancestor "*").step .child "*"
  have hPaxes : ∀ s ∈ P.steps, s.axis ≠ .attributes ∧ s.axis ≠ .namespaces := by decide
  have hQaxes : ∀ s ∈ Q.steps, s.axis ∈ Axis.vertical := by decide
  exact ⟨⟨hT, hP, hQ, hPaxes, hQaxes⟩, selects_vertical hT hP hQ hPaxes hQaxes 5⟩

end JsonAxes
