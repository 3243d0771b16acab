import JsonAxes.Proofs.Query.Composition
import JsonAxes.Proofs.Query.Lockstep

/-!
# Down to a child and back

A tree may be anything here: nodes may be children of several others, or of one of them repeatedly,
or lie below themselves, and what it says of parents may be wrong. A path that goes down to a child
leads from there back to the place that it came from and to the siblings of the child at that place
(`Query.finds_throughChild`), as the search remembers its way.

On such a tree most paths have no end to speak of. But where the query for a path comes to its end,
so does the query for the path joined with steps that only go to what is next to a place
(`Query.finds_join_of_near`). It runs in lockstep with the first, and where that finds a match it
follows the further steps and comes back to where the first went on (`Search.Yields.join`).
-/

set_option autoImplicit false

namespace JsonAxes

universe u

variable {N : Type u} {T : Tree N} {names : NameTable} {start : N}

/-! ## Going on from a place -/

namespace Query

/-- A query that goes on along a path from a place. -/
def onward (T : Tree N) (path : Path) (p : Place N) : Query N :=
  ⟨T, path.names, ⟨some (.fresh p, path.steps), []⟩, 0, none⟩

/-- Whether a query that goes on along a path from a place comes to its end with some places, one
behind the other and without an error. -/
def Finds (T : Tree N) (path : Path) (p : Place N) (found : List (Place N)) : Prop :=
  ∃ n, ∀ m, n ≤ m → (onward T path p).run m = ⟨found, .exhausted⟩

/-- A run that comes to the end of its query shows what the query finds. -/
theorem finds_of_run {path : Path} {p : Place N} {n : Nat} {found : List (Place N)}
    (h : (onward T path p).run n = ⟨found, .exhausted⟩) : Finds T path p found := by
  refine ⟨n, fun m hm => ?_⟩
  have hended : ((onward T path p).run n).ending ≠ .unfinished := by
    rw [h]
    exact nofun
  exact (run_eq_of_le hended hm).trans h

/-- A search yields what a run of its query yields that comes to the end. -/
theorem yields_of_run {s : Search N} {taken n : Nat}
    (h : ((⟨T, names, s, taken, none⟩ : Query N).run n).ending ≠ .unfinished) :
    s.Yields T names ((⟨T, names, s, taken, none⟩ : Query N).run n) := by
  induction n generalizing s taken with
  | zero => exact absurd rfl h
  | succ n ih =>
      rw [run, advance_of_not_isSpent (isSpent_of_unlimited rfl)] at h ⊢
      simp only at h ⊢
      cases hadvance : s.advance T names with
      | exhausted => exact .exhausted hadvance
      | moved s' =>
          rw [hadvance] at h
          exact .moved hadvance (ih h)
      | matched p s' =>
          rw [hadvance] at h
          exact .matched hadvance (ih h)
      | failed axis => exact .failed hadvance

theorem finds_iff_yields {path : Path} {p : Place N} {found : List (Place N)} :
    Finds T path p found
      ↔ (⟨some (.fresh p, path.steps), []⟩ : Search N).Yields T path.names ⟨found, .exhausted⟩ := by
  constructor
  · rintro ⟨n, hn⟩
    have hrun := hn n (Nat.le_refl n)
    have hyields : Search.Yields T path.names _ ((onward T path p).run n) :=
      yields_of_run (by rw [← onward, hrun]; exact nofun)
    rwa [hrun] at hyields
  · intro h
    obtain ⟨n, hn⟩ := exists_run_of_yields h 0
    exact finds_of_run hn

end Query

/-! ## Steps behind the end of a search -/

theorem Path.answersFrom_congr {names' : NameTable} {steps steps' : List Step}
    (h : names.Serves steps) (h' : names'.Serves steps')
    (heq : steps'.map (Step.spelled names') = steps.map (Step.spelled names)) (p : Place N) :
    answersFrom T names' steps' p = answersFrom T names steps p := by
  rw [answersFrom, answersFrom, evalSteps_congr h h' heq, faultIn?_congr h h' heq]

namespace Search

theorem ne_arrived_of_exhausted {s : Search N} (h : s.advance T names = .exhausted)
    (item : Item N) : s.arrived? ≠ some (item, []) := by
  intro hitem
  rw [advance_of_arrived T names hitem] at h
  cases h

theorem ne_arrived_of_moved {s s' : Search N} (h : s.advance T names = .moved s')
    (item : Item N) : s.arrived? ≠ some (item, []) := by
  intro hitem
  rw [advance_of_arrived T names hitem] at h
  cases h

/-- All that a search yields is reached from its start. -/
theorem Yields.reaches {path : Path} {s : Search N} {a : Answers N}
    (h : s.Yields T path.names a) (hs : s.IsReal T path start) :
    ∀ p ∈ a.matched, T.Reaches start p := by
  induction h with
  | exhausted h => exact List.forall_mem_nil _
  | moved h _ ih =>
      have hreal := hs.advance
      rw [h] at hreal
      exact ih hreal
  | matched h _ ih =>
      have hreal := hs.advance
      rw [h] at hreal
      exact List.forall_mem_cons.mpr ⟨hreal.1, ih hreal.2⟩
  | failed h => exact List.forall_mem_nil _

/-- Where a search comes to its end, so does one that has near steps behind the end of its path: it
yields what these steps lead to from each match, one match after the other. -/
theorem Yields.join {lead path Q : Path} (hL : Lockstep T T lead path start) (hQ : Q.Made)
    (hnear : ∀ s ∈ Q.steps, s.axis.isNear = true) {s s' : Search N}
    (h : s.Alike lead.names path.names Q.spelled s') (hs : s.IsReal T lead start)
    (hs' : s'.IsReal T path start) {xs : List (Place N)}
    (hyields : s.Yields T lead.names ⟨xs, .exhausted⟩) :
    s'.Yields T path.names (.join (xs.map (Path.answersFrom T Q.names Q.steps))) := by
  generalize ha : (⟨xs, .exhausted⟩ : Answers N) = a at hyields
  induction hyields generalizing s' xs with
  | exhausted hadv =>
      cases ha
      have hadvance := h.advance hL hs hs' (.inr (ne_arrived_of_exhausted hadv))
      rw [hadv] at hadvance
      generalize hadv' : s'.advance T path.names = advance' at hadvance
      cases hadvance
      exact .exhausted hadv'
  | moved hadv _ ih =>
      have hadvance := h.advance hL hs hs' (.inr (ne_arrived_of_moved hadv))
      have hreal := hs.advance
      have hreal' := hs'.advance
      rw [hadv] at hadvance hreal
      generalize hadv' : s'.advance T path.names = advance' at hadvance hreal'
      cases hadvance with
      | moved h₁ => exact .moved hadv' (ih h₁ hreal hreal' ha)
  | @matched s s₁ p a hadv _ ih =>
      obtain ⟨item, hitem, rfl, rfl⟩ := exists_arrived_of_matched hadv
      obtain ⟨arrived?', frames'⟩ := s'
      have harrived := h.arrived
      rw [hitem] at harrived
      cases harrived with
      | @some _ a' ha' =>
          obtain ⟨item', rest⟩ := a'
          obtain ⟨hplace, hrest⟩ := ha'
          obtain ⟨hi', hsuffix⟩ := hs'.arrived item' rest rfl
          obtain ⟨xs', ending⟩ := a
          cases ha
          -- the further steps are followed from the match, and then the search goes on as the first
          have hrest : rest.map (Step.spelled path.names) = Q.spelled := hrest
          have hfollows : Follows T path.names start rest := follows_near fun t ht => by
            obtain ⟨u, hu, haxis⟩ := Step.exists_axis_eq hrest ht
            exact haxis ▸ hnear u hu
          have hanswers := Path.answersFrom_congr (T := T) hQ.serves
            (hL.serves'.mono hsuffix.subset) hrest item.place
          have halike : (⟨none, s.frames⟩ : Search N).Alike lead.names path.names Q.spelled
              ⟨none, frames'⟩ := ⟨.none, h.frames⟩
          have hbehind := ih halike (isReal_of_frames hs.frames) (isReal_of_frames hs'.frames) rfl
          have hyields := hfollows item' frames' _ hi'.reached hi'.truthful hbehind
          rw [hplace, hanswers] at hyields
          exact hyields
  | failed hadv => cases ha

end Search

/-! ## Queries that lead on from matches -/

namespace Query

variable {P Q path : Path}

/-- From a place that is reached, steps that are followed find all that they mean. -/
theorem finds_of_follows (hfollows : Search.Follows T Q.names start Q.steps)
    (hsupports : ∀ s ∈ Q.steps, T.supports s.axis = true) {p : Place N} (hp : T.Reaches start p) :
    Finds T Q p (Path.evalSteps T Q.names Q.steps p) := by
  have hyields : (⟨some (.fresh p, Q.steps), []⟩ : Search N).Yields T Q.names
      (Path.answersFrom T Q.names Q.steps p ++ .nothing) :=
    hfollows (.fresh p) [] .nothing hp (Item.isTruthful_fresh p) (.exhausted rfl)
  rw [Answers.append_nothing, Path.answersFrom, Path.faultIn?_eq_none_of_supports hsupports]
    at hyields
  exact finds_iff_yields.mpr hyields

/-- Steps that only go to what is next to a place are followed, whatever the tree. -/
theorem finds_of_near (hnear : ∀ s ∈ Q.steps, s.axis.isNear = true)
    (hsupports : ∀ s ∈ Q.steps, T.supports s.axis = true) {p : Place N} (hp : T.Reaches start p) :
    Finds T Q p (Path.evalSteps T Q.names Q.steps p) :=
  finds_of_follows (Search.follows_near hnear) hsupports hp

/-- **Where the query for a path comes to its end, so does that for the path with near steps behind
it**: it finds what these steps mean from each match, one match after the other. -/
theorem finds_join_of_near (hP : P.Made) (hQ : Q.Made) (hpath : path.Made)
    (hspelled : path.spelled = P.spelled ++ Q.spelled)
    (hnear : ∀ s ∈ Q.steps, s.axis.isNear = true)
    (hsupports : ∀ s ∈ Q.steps, T.supports s.axis = true) {xs : List (Place N)}
    (hxs : Finds T P (.root start) xs) :
    Finds T path (.root start) (xs.flatMap (Path.evalSteps T Q.names Q.steps)) := by
  have hlockstep : Lockstep T T P path start :=
    ⟨⟨rfl, rfl, rfl, rfl, rfl⟩, fun _ _ => rfl, hP.serves, hpath.serves⟩
  have halike : (Search.start P.steps start).Alike P.names path.names Q.spelled
      (Search.start path.steps start) := ⟨.some ⟨rfl, hspelled⟩, .nil⟩
  have hyields := Search.Yields.join hlockstep hQ hnear halike (Search.isReal_start P start)
    (Search.isReal_start path start) (finds_iff_yields.mp hxs)
  have hfault : xs.findSome? (Path.faultIn? T Q.names Q.steps) = none :=
    List.findSome?_eq_none_iff.mpr fun x _ => Path.faultIn?_eq_none_of_supports hsupports x
  rw [Path.join_map_answersFrom, hfault] at hyields
  exact finds_iff_yields.mpr hyields

theorem reaches_of_finds {xs : List (Place N)} (hxs : Finds T P (.root start) xs) :
    ∀ x ∈ xs, T.Reaches start x :=
  (finds_iff_yields.mp hxs).reaches (Search.isReal_start P start)

end Query

/-! ## Through a child -/

namespace Path

/-- A path that goes on to the child at a position, counted from one, and from there along an axis,
whatever the nodes are. -/
def throughChild (P : Path) (position : Nat) (axis : Axis) : Path :=
  ((P.step .child "node()").nth position).step axis "node()"

variable {P : Path} (position : Nat) (axis : Axis)

theorem throughChild_eq : P.throughChild position axis
    = { P with steps := P.steps ++ [⟨.child, .node, some position⟩, ⟨axis, .node, none⟩] } := by
  simp [throughChild, step, push, nth]

theorem Made.throughChild (hP : P.Made) : (P.throughChild position axis).Made :=
  ((hP.step .child "node()").nth position).step axis "node()"

theorem spelled_throughChild : (P.throughChild position axis).spelled
    = P.spelled ++ (Path.empty.throughChild position axis).spelled := by
  rw [throughChild_eq, throughChild_eq, spelled, spelled, spelled, List.map_append]
  rfl

/-- Through a child, steps lead where the axis leads from that child, if there is one. -/
theorem evalSteps_throughChild (i : Nat) {p : Place N} {back : List (Place N)}
    (hback : ∀ c, (p.child i c).along T .empty .node axis = back) :
    evalSteps T (Path.empty.throughChild (i + 1) axis).names
        (Path.empty.throughChild (i + 1) axis).steps p
      = if i < (T.children p.node).length then back else [] := by
  have hall : ∀ l : List (Place N), l.filter (NodeTest.node.passes T .empty) = l := fun l =>
    List.filter_eq_self.mpr fun _ _ => rfl
  have hchild : (⟨.child, .node, some (i + 1)⟩ : Step).selected T .empty p
      = ((T.children p.node)[i]?.map (p.child i)).toList := by
    rw [Step.selected, hall, atPosition, Place.along, Place.childPlaces, List.getElem?_mapIdx]
  have hlast : ∀ q, evalSteps T .empty [⟨axis, .node, none⟩] q = q.along T .empty .node axis := by
    intro q
    rw [evalSteps, Step.selected, hall, atPosition]
    exact List.flatMap_singleton' _
  show ((⟨.child, .node, some (i + 1)⟩ : Step).selected T .empty p).flatMap
      (evalSteps T .empty [⟨axis, .node, none⟩]) = _
  rw [hchild]
  split
  · next hi =>
    rw [List.getElem?_eq_getElem hi, Option.map_some, Option.toList_some, List.flatMap_singleton,
      hlast, hback]
  · next hi => rw [List.getElem?_eq_none (Nat.le_of_not_lt hi), Option.map_none,
      Option.toList_none, List.flatMap_nil]

theorem near_throughChild (hnear : axis.isNear = true) :
    ∀ s ∈ (Path.empty.throughChild position axis).steps, s.axis.isNear = true :=
  List.forall_mem_cons.mpr ⟨rfl, List.forall_mem_singleton.mpr hnear⟩

theorem supports_throughChild (hsupports : T.supports axis = true) :
    ∀ s ∈ (Path.empty.throughChild position axis).steps, T.supports s.axis = true :=
  List.forall_mem_cons.mpr ⟨rfl, List.forall_mem_singleton.mpr hsupports⟩

end Path

namespace Query

/-- What a path finds through a child: from each match, and behind the whole path. -/
theorem finds_throughChild_along {P : Path} (hP : P.Made) {xs : List (Place N)}
    (hxs : Finds T P (.root start) xs) (i : Nat) (axis : Axis) (hnear : axis.isNear = true)
    (hsupports : T.supports axis = true) {back : Place N → List (Place N)}
    (hback : ∀ p c, (p.child i c).along T .empty .node axis = back p) :
    (∀ x ∈ xs, i < (T.children x.node).length →
      Finds T (Path.empty.throughChild (i + 1) axis) x (back x))
    ∧ Finds T (P.throughChild (i + 1) axis) (.root start)
        (xs.flatMap fun x => if i < (T.children x.node).length then back x else []) := by
  have heval := fun p : Place N => Path.evalSteps_throughChild axis i (hback p)
  have hnear' := Path.near_throughChild (i + 1) axis hnear
  have hsupports' := Path.supports_throughChild (i + 1) axis hsupports
  constructor
  · intro x hx hi
    have hfinds := finds_of_near hnear' hsupports' (reaches_of_finds hxs x hx)
    rwa [heval, if_pos hi] at hfinds
  · have hfinds := finds_join_of_near hP (Path.Made.empty.throughChild (i + 1) axis)
      (hP.throughChild (i + 1) axis) (Path.spelled_throughChild (i + 1) axis) hnear' hsupports' hxs
    rwa [List.flatMap_congr fun x _ => heval x] at hfinds

/-- **Down to a child and back.** In whichever tree, let the query for a path come to its end with
some matches. From each match, as it was reached, the child at a position leads to the match by the
parent axis, to the children before it by the preceding-sibling axis and to those behind it by the
following-sibling axis, in their order; and behind the whole path these steps find the same from all
matches, one after the other, that have a child at this position. -/
theorem finds_throughChild {P : Path} (hP : P.Made) {xs : List (Place N)}
    (hxs : Finds T P (.root start) xs) (i : Nat) :
    (∀ x ∈ xs, i < (T.children x.node).length →
      Finds T (Path.empty.throughChild (i + 1) .parent) x [x]
      ∧ Finds T (Path.empty.throughChild (i + 1) .precedingSibling) x ((x.childPlaces T).take i)
      ∧ Finds T (Path.empty.throughChild (i + 1) .followingSibling) x
          ((x.childPlaces T).drop (i + 1)))
    ∧ Finds T (P.throughChild (i + 1) .parent) (.root start)
        (xs.flatMap fun x => if i < (T.children x.node).length then [x] else [])
    ∧ Finds T (P.throughChild (i + 1) .precedingSibling) (.root start)
        (xs.flatMap fun x =>
          if i < (T.children x.node).length then (x.childPlaces T).take i else [])
    ∧ Finds T (P.throughChild (i + 1) .followingSibling) (.root start)
        (xs.flatMap fun x =>
          if i < (T.children x.node).length then (x.childPlaces T).drop (i + 1) else []) := by
  obtain ⟨hparent, hparents⟩ := finds_throughChild_along hP hxs i .parent rfl rfl fun _ _ => rfl
  obtain ⟨hbefore, hbefores⟩ := finds_throughChild_along hP hxs i .precedingSibling rfl rfl
    fun _ _ => rfl
  obtain ⟨hbehind, hbehinds⟩ := finds_throughChild_along hP hxs i .followingSibling rfl rfl
    fun _ _ => rfl
  exact ⟨fun x hx hi => ⟨hparent x hx hi, hbefore x hx hi, hbehind x hx hi⟩, hparents, hbefores,
    hbehinds⟩

/-- A table with cycles, in which a node is twice a child of another and no parent is right. -/
def tangle : NodeTable where
  rows := #[⟨"r", some 1, [1, 1, 0, 2], []⟩, ⟨"a", none, [0, 2], []⟩, ⟨"b", some 2, [1], []⟩]
  knowsParents := true
  hasAttributes := false
  hasLinks := true

/-- From the children of the first node, of which one is this node itself and the last has no second
child. -/
theorem finds_throughChild_tangle :
    let T := tangle.tree
    let P := Path.empty.step .child "*"
    let again := (Place.root 0).child 2 0
    let xs := [(Place.root 0).child 0 1, (Place.root 0).child 1 1, again, (Place.root 0).child 3 2]
    (P.Made ∧ Finds T P (.root 0) xs ∧ again ∈ xs ∧ 1 < (T.children again.node).length)
    ∧ Finds T (Path.empty.throughChild 2 .parent) again [again]
    ∧ Finds T (P.throughChild 2 .parent) (.root 0) (xs.take 3)
    ∧ Finds T (P.throughChild 2 .followingSibling) (.root 0)
      [again.child 2 0, again.child 3 2] := by
  intro T P again xs
  have hP : P.Made := Path.Made.empty.step .child "*"
  have hrun : (onward T P (.root 0)).run 40 = ⟨xs, .exhausted⟩ := rfl
  have hxs : Finds T P (.root 0) xs := finds_of_run hrun
  have hagain : again ∈ xs := by simp [xs]
  have hchildren : 1 < (T.children again.node).length := by decide
  obtain ⟨heach, hparents, -, hbehinds⟩ := finds_throughChild hP hxs 1
  exact ⟨⟨hP, hxs, hagain, hchildren⟩, (heach again hagain hchildren).1, hparents, hbehinds⟩

end Query

end JsonAxes
