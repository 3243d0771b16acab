import JsonAxes.Proofs.Query.Offers
import JsonAxes.Proofs.Query.Step

/-!
# Searches compute what paths mean

Expanding an item along an axis offers the places along that axis (`Search.exists_offers_along`):
the induction is on the way down for the axes that go down, and on the way up for those that go
up; along the other axes there is nothing to walk (`Search.exists_offers_near`). A path is then
followed step by step (`Search.follows`), and a query from a grounded start comes to its end with
the answers that the path means (`Query.exists_run_eq_answers`).
-/

set_option autoImplicit false

namespace JsonAxes

universe u

variable {N : Type u} {T : Tree N} {names : NameTable} {start : N}

/-- Whether an axis leads no further than to the parent, the siblings, the children or the
attributes of a node, so that there is no walk along it that might go on forever. -/
def Axis.isNear : Axis → Bool
  | .self | .child | .parent | .followingSibling | .precedingSibling | .attributes
  | .namespaces => true
  | .descendant | .descendantOrSelf | .ancestor | .ancestorOrSelf | .following | .preceding => false

/-! ## Cursors -/

namespace Cursor

/-- The children that a cursor has still to visit: those from its index on, up to where it stops. -/
def left (c : Cursor N) : List N :=
  match c.stop? with
  | none => c.rest
  | some stop => c.rest.take (stop - c.index)

variable {c : Cursor N}

/-- A cursor with nothing left leads to nothing. -/
theorem tasks_of_left_nil (h : c.left = []) (mode : Mode) (item : Item N) :
    c.tasks mode item = [] := by
  obtain ⟨owner, index, stop?, rest, emit⟩ := c
  cases rest with
  | nil => simp [tasks]
  | cons n rest =>
      cases stop? with
      | none => cases h
      | some stop =>
          have hstop : stop ≤ index := by simpa [left, Nat.sub_eq_zero_iff_le] using h
          simp [tasks, isStopped, hstop]

/-- A cursor leads to the first child that is left, and behind that to the others. -/
theorem exists_of_left_cons {n : N} {others : List N} (h : c.left = n :: others) (mode : Mode)
    (item : Item N) :
    ∃ rest, c.rest = n :: rest ∧ (c.step rest).left = others
      ∧ c.tasks mode item = [.expand c.emit (.fresh (c.owner.child c.index n)),
        .resume mode item (c.step rest)] := by
  obtain ⟨owner, index, stop?, rest, emit⟩ := c
  cases stop? with
  | none =>
      cases h
      exact ⟨others, rfl, rfl, rfl⟩
  | some stop =>
      obtain ⟨k, hk⟩ : ∃ k, stop - index = k + 1 := by
        refine Nat.exists_eq_succ_of_ne_zero fun hzero => ?_
        simp [left, hzero] at h
      cases rest with
      | nil => simp [left] at h
      | cons m rest =>
          have hbehind : stop - (index + 1) = k := by omega
          have hgoes : ¬ stop ≤ index := by omega
          simp only [left, hk, List.take_succ_cons, List.cons.injEq] at h
          obtain ⟨rfl, rfl⟩ := h
          exact ⟨rest, rfl, by simp [left, step, hbehind], by simp [tasks, isStopped, hgoes]⟩

/-- The places that a cursor has still to visit. -/
def places (c : Cursor N) : List (Place N) :=
  c.left.mapIdx fun i n => c.owner.child (c.index + i) n

theorem places_of_left_nil (h : c.left = []) : c.places = [] := by
  rw [places, h, List.mapIdx_nil]

theorem places_of_left_cons {n : N} {rest : List N} (h : c.left = n :: (c.step rest).left) :
    c.places = c.owner.child c.index n :: (c.step rest).places := by
  simp only [places, h, List.mapIdx_cons, Nat.add_zero]
  congr 2
  funext i m
  rw [step, Nat.add_assoc, Nat.add_comm 1 i]

theorem places_children (owner : Place N) (emit : Mode) :
    (children T owner emit).places = owner.childPlaces T := by
  simp [places, left, children, Place.childPlaces]

theorem places_before (owner : Place N) (index : Nat) (emit : Mode) :
    (before T owner index emit).places = (owner.childPlaces T).take index := by
  refine List.ext_getElem? fun i => ?_
  simp only [places, left, before, Place.childPlaces, List.getElem?_mapIdx, List.getElem?_take,
    Nat.zero_add, Nat.sub_zero]
  split <;> rfl

theorem places_behind (owner : Place N) (index : Nat) (emit : Mode) :
    (behind T owner index emit).places = (owner.childPlaces T).drop (index + 1) := by
  refine List.ext_getElem? fun i => ?_
  simp only [places, left, behind, Place.childPlaces, List.getElem?_mapIdx, List.getElem?_drop]

end Cursor

/-! ## Reaching the places along an axis -/

namespace Tree.Reaches

theorem of_mem_childPlaces {p q : Place N} (hp : T.Reaches start p) (hq : q ∈ p.childPlaces T) :
    T.Reaches start q := by
  obtain ⟨i, hi, rfl⟩ := List.mem_mapIdx.mp hq
  exact hp.child (List.getElem?_eq_getElem hi)

/-- The owner of a place is reached if the place is. -/
theorem owner {p : Place N} {index? : Option Nat} {n : N}
    (hp : T.Reaches start (.within p index? n)) : T.Reaches start p := hp.up rfl

end Tree.Reaches

/-- The attributes that an item is asked for are those that the test asks for at its place. -/
theorem Item.attributesFor_eq (item : Item N) (test : NodeTest) :
    item.attributesFor T names test = test.attributeNames T names item.place := by
  cases test <;> rfl

namespace Search

/-- A cursor offers what expanding each of its places offers, whichever item it belongs to. -/
theorem offers_cursor {g : Place N → List (Place N)} {left : List N} {c : Cursor N} {mode : Mode}
    {item : Item N} (hleft : c.left = left)
    (h : ∀ p ∈ c.places, Offers T names start [.expand c.emit (.fresh p)] (g p)) :
    Offers T names start (c.tasks mode item) (c.places.flatMap g) := by
  induction left generalizing c with
  | nil =>
      rw [Cursor.tasks_of_left_nil hleft, Cursor.places_of_left_nil hleft]
      exact offers_nil
  | cons n left ih =>
      obtain ⟨rest, -, hbehind, htasks⟩ := Cursor.exists_of_left_cons hleft mode item
      rw [← hbehind] at hleft
      rw [Cursor.places_of_left_cons hleft] at h ⊢
      rw [htasks, List.flatMap_cons]
      refine (h _ List.mem_cons_self).cons (.resume (ih hbehind fun p hp => ?_))
      exact h p (List.mem_cons_of_mem _ hp)

/-- A cursor that tests its places offers them. -/
theorem offers_cursor_self {c : Cursor N} {mode : Mode} {item : Item N}
    (hc : c.emit = .along .self) (h : ∀ p ∈ c.places, T.Reaches start p) :
    Offers T names start (c.tasks mode item) c.places := by
  have hall : Offers T names start (c.tasks mode item) (c.places.flatMap fun p => [p]) := by
    refine offers_cursor rfl fun p hp => ?_
    rw [hc]
    exact offers_fresh_self (h p hp)
  rwa [List.flatMap_singleton'] at hall

/-! ## Axes that go down -/

/-- An item offers its own place and then what its place below offers. -/
theorem offers_descendantOrSelf (item : Item N) {cs : List (Place N)}
    (hp : T.Reaches start item.place) (hi : item.IsTruthful T names)
    (h : Offers T names start
      ((Cursor.children T item.place (.along .descendantOrSelf)).tasks (.along .descendant) item)
      cs) :
    Offers T names start [.expand (.along .descendantOrSelf) item] (item.place :: cs) := by
  refine .expand (by decide) (fun _ => rfl) ?_
  exact (offers_self item hp hi).cons (.expand (by decide) (fun _ => rfl) h)

/-- The children of a place, each with everything below it, are the places below. -/
theorem offers_children_deep (hT : T.Grounded start) {p : Place N} (hp : T.Reaches start p)
    {mode : Mode} {item : Item N} :
    Offers T names start ((Cursor.children T p (.along .descendantOrSelf)).tasks mode item)
      (p.descendants T) := by
  -- the induction is on the way down, which depends on the node alone and not on its place
  obtain ⟨n, hn⟩ : ∃ n, n = p.node := ⟨_, rfl⟩
  have hends : T.EndsBelow n := hn ▸ hT.below p hp
  induction hends generalizing p mode item with
  | intro n _ ih =>
      subst hn
      rw [Place.descendants, ← Cursor.places_children p (.along .descendantOrSelf)]
      refine offers_cursor rfl fun q hq => ?_
      rw [Cursor.places_children] at hq
      have hr := hp.of_mem_childPlaces hq
      rw [Place.subtree_eq (hT.below q hr)]
      exact offers_descendantOrSelf (.fresh q) hr (Item.isTruthful_fresh q)
        (ih q.node (Place.node_mem_of_mem_childPlaces hq) hr rfl)

theorem offers_subtree (hT : T.Grounded start) (item : Item N)
    (hp : T.Reaches start item.place) (hi : item.IsTruthful T names) :
    Offers T names start [.expand (.along .descendantOrSelf) item] (item.place.subtree T) := by
  rw [Place.subtree_eq (hT.below _ hp)]
  exact offers_descendantOrSelf item hp hi (offers_children_deep hT hp)

/-! ## Axes that go up -/

theorem upTasks_of_top {item : Item N} (h : item.place.up? T = none) (mode : Mode) :
    item.upTasks T mode = [] := by
  simp only [Item.upTasks, h]

theorem upTasks_of_up? {item : Item N} {p : Place N} (h : item.place.up? T = some p) (mode : Mode) :
    item.upTasks T mode = [.expand mode (.fresh p)] := by
  simp only [Item.upTasks, h]

theorem offers_parent {item : Item N} (hp : T.Reaches start item.place) :
    Offers T names start (item.upTasks T (.along .self)) (item.place.up? T).toList := by
  cases hq : item.place.up? T with
  | none =>
      rw [upTasks_of_top hq]
      exact offers_nil
  | some q =>
      rw [upTasks_of_up? hq]
      exact offers_fresh_self (hp.up hq)

/-- Going up and up offers the places above. -/
theorem offers_ancestors (hT : T.Grounded start) (item : Item N)
    (hp : T.Reaches start item.place) :
    Offers T names start (item.upTasks T (.along .ancestorOrSelf)) (item.place.ancestors T) := by
  obtain ⟨p, hpe⟩ : ∃ p, p = item.place := ⟨_, rfl⟩
  have hends : T.EndsAbove p := hpe ▸ hT.endsAbove hp
  induction hends generalizing item with
  | intro p hacc ih =>
      subst hpe
      cases hq : item.place.up? T with
      | none =>
          rw [upTasks_of_top hq, Place.ancestors_of_top hq]
          exact offers_nil
      | some q =>
          rw [upTasks_of_up? hq, Place.ancestors_of_up? ⟨_, hacc⟩ hq]
          -- above, nothing is known of the item any more: it is met as a fresh one
          refine .expand (by decide) (fun _ => rfl) ((offers_fresh_self (hp.up hq)).cons ?_)
          exact .expand (by decide) (fun _ => rfl)
            (ih q hq (.fresh q) (hp.up hq) rfl)

/-! ## Siblings, and what follows and precedes -/

/-- Siblings of a place that is reached are reached. -/
theorem reaches_of_mem_siblings {part : Nat → List (Place N) → List (Place N)}
    (hpart : ∀ i l, part i l ⊆ l) {p q : Place N} (hp : T.Reaches start p)
    (hq : q ∈ p.siblings T part) : T.Reaches start q := by
  rcases p with n | ⟨owner, _ | i, n⟩
  · cases hq
  · cases hq
  · exact hp.owner.of_mem_childPlaces (hpart i _ hq)

/-- The tasks of a cursor through siblings offer what expanding each of them offers. -/
theorem offers_siblings {item : Item N} {cursor : Place N → Nat → Cursor N} {held mode : Mode}
    {part : Nat → List (Place N) → List (Place N)} {g : Place N → List (Place N)}
    (hplaces : ∀ owner i, (cursor owner i).places = part i (owner.childPlaces T))
    (hemit : ∀ owner i, (cursor owner i).emit = mode)
    (h : ∀ q ∈ item.place.siblings T part, Offers T names start [.expand mode (.fresh q)] (g q)) :
    Offers T names start (item.siblingTasks held cursor)
      ((item.place.siblings T part).flatMap g) := by
  obtain ⟨p, tag?⟩ := item
  rcases p with n | ⟨owner, _ | i, n⟩
  · exact offers_nil
  · exact offers_nil
  · simp only [Place.siblings, ← hplaces] at h ⊢
    exact offers_cursor rfl fun q hq => (hemit owner i).symm ▸ h q hq

theorem offers_siblings_self {item : Item N} {held : Mode} {cursor : Place N → Nat → Cursor N}
    {part : Nat → List (Place N) → List (Place N)} (hpart : ∀ i l, part i l ⊆ l)
    (hplaces : ∀ owner i, (cursor owner i).places = part i (owner.childPlaces T))
    (hemit : ∀ owner i, (cursor owner i).emit = .along .self)
    (hp : T.Reaches start item.place) :
    Offers T names start (item.siblingTasks held cursor) (item.place.siblings T part) := by
  have hall : Offers T names start (item.siblingTasks held cursor)
      ((item.place.siblings T part).flatMap fun q => [q]) :=
    offers_siblings hplaces hemit fun q hq =>
      offers_fresh_self (reaches_of_mem_siblings hpart hp hq)
  rwa [List.flatMap_singleton'] at hall

theorem offers_siblings_subtrees (hT : T.Grounded start) {item : Item N} {held : Mode}
    {cursor : Place N → Nat → Cursor N} {part : Nat → List (Place N) → List (Place N)}
    (hpart : ∀ i l, part i l ⊆ l)
    (hplaces : ∀ owner i, (cursor owner i).places = part i (owner.childPlaces T))
    (hemit : ∀ owner i, (cursor owner i).emit = .along .descendantOrSelf)
    (hp : T.Reaches start item.place) :
    Offers T names start (item.siblingTasks held cursor)
      ((item.place.siblings T part).flatMap (Place.subtree T)) :=
  offers_siblings hplaces hemit fun q hq =>
    offers_subtree hT (.fresh q) (reaches_of_mem_siblings hpart hp hq)
      (Item.isTruthful_fresh q)

theorem offers_laterSubtrees (hT : T.Grounded start) {item : Item N}
    (hp : T.Reaches start item.place) :
    Offers T names start [.expand .followingSubtrees item] (item.place.laterSubtrees T) :=
  .expand (by decide) (fun _ => rfl) (offers_siblings_subtrees hT
    (fun i => List.drop_subset (i + 1)) (fun owner i => Cursor.places_behind owner i _)
    (fun _ _ => rfl) hp)

theorem offers_earlierSubtrees (hT : T.Grounded start) {item : Item N}
    (hp : T.Reaches start item.place) :
    Offers T names start [.expand .precedingSubtrees item] (item.place.earlierSubtrees T) :=
  .expand (by decide) (fun _ => rfl) (offers_siblings_subtrees hT List.take_subset
    (fun owner i => Cursor.places_before owner i _) (fun _ _ => rfl) hp)

/-- The later siblings of an item and then those of the places above offer what follows it. -/
theorem offers_followers (hT : T.Grounded start) (item : Item N)
    (hp : T.Reaches start item.place) :
    Offers T names start (.expand .followingSubtrees item :: item.upTasks T (.along .following))
      (item.place.followers T) := by
  obtain ⟨p, hpe⟩ : ∃ p, p = item.place := ⟨_, rfl⟩
  have hends : T.EndsAbove p := hpe ▸ hT.endsAbove hp
  induction hends generalizing item with
  | intro p hacc ih =>
      subst hpe
      have hlater : Offers T names start [.expand .followingSubtrees item]
          (item.place.laterSubtrees T) := offers_laterSubtrees hT hp
      cases hq : item.place.up? T with
      | none =>
          rw [upTasks_of_top hq, Place.followers_of_top hq]
          exact hlater
      | some q =>
          rw [upTasks_of_up? hq, Place.followers_of_up? ⟨_, hacc⟩ hq]
          refine hlater.cons (.expand (by decide) (fun _ => rfl) ?_)
          exact ih q hq (.fresh q) (hp.up hq) rfl

/-- The earlier siblings of the places above and then those of an item offer what precedes it. -/
theorem offers_predecessors (hT : T.Grounded start) (item : Item N)
    (hp : T.Reaches start item.place) :
    Offers T names start
      (item.upTasks T (.along .preceding) ++ [.expand .precedingSubtrees item])
      (item.place.predecessors T) := by
  obtain ⟨p, hpe⟩ : ∃ p, p = item.place := ⟨_, rfl⟩
  have hends : T.EndsAbove p := hpe ▸ hT.endsAbove hp
  induction hends generalizing item with
  | intro p hacc ih =>
      subst hpe
      have hearlier : Offers T names start [.expand .precedingSubtrees item]
          (item.place.earlierSubtrees T) := offers_earlierSubtrees hT hp
      cases hq : item.place.up? T with
      | none =>
          rw [upTasks_of_top hq, Place.predecessors_of_top hq]
          exact hearlier
      | some q =>
          rw [upTasks_of_up? hq, Place.predecessors_of_up? ⟨_, hacc⟩ hq]
          refine .append (.expand (by decide) (fun _ => rfl) ?_) hearlier
          exact ih q hq (.fresh q) (hp.up hq) rfl

/-! ## Attributes -/

/-- Testing the attributes of some names offers the places of those that there are. -/
theorem offers_attributes {item : Item N} (hp : T.Reaches start item.place) (keys : List String) :
    Offers T names start (keys.flatMap (item.attributeTasks T))
      (keys.flatMap fun name =>
        (T.attribute? item.place.node name).toList.map item.place.attr) := by
  induction keys with
  | nil => exact offers_nil
  | cons name keys ih =>
      rw [List.flatMap_cons, List.flatMap_cons]
      refine .append ?_ ih
      cases ha : T.attribute? item.place.node name with
      | none =>
          simp only [Item.attributeTasks, ha]
          exact offers_nil
      | some n =>
          simp only [Item.attributeTasks, ha]
          exact offers_fresh_self (hp.attr ha)

/-! ## All axes -/

/-- Expanding an item along an axis that leads no further than next to its place, other than the
self axis, offers the places along that axis, whatever the tree. -/
theorem exists_offers_near {item : Item N} (hp : T.Reaches start item.place) (test : NodeTest)
    {axis : Axis} (hnear : axis.isNear = true) (hs : T.supports axis = true)
    (hself : axis ≠ .self) :
    ∃ tasks, item.expansion T names test (.along axis) = .ok tasks
      ∧ Offers T names start tasks (item.place.along T names test axis) := by
  cases axis with
  | self => exact absurd rfl hself
  | child =>
      refine ⟨_, rfl, ?_⟩
      have hc := Cursor.places_children (T := T) item.place (.along .self)
      rw [Place.along, ← hc]
      refine offers_cursor_self rfl fun q hq => ?_
      rw [hc] at hq
      exact hp.of_mem_childPlaces hq
  | parent => exact ⟨_, rfl, offers_parent hp⟩
  | followingSibling =>
      exact ⟨_, rfl, offers_siblings_self (fun i => List.drop_subset (i + 1))
        (fun owner i => Cursor.places_behind owner i _) (fun _ _ => rfl) hp⟩
  | precedingSibling =>
      exact ⟨_, rfl, offers_siblings_self List.take_subset
        (fun owner i => Cursor.places_before owner i _) (fun _ _ => rfl) hp⟩
  | attributes =>
      have hattr : T.hasAttributes = true := hs
      refine ⟨(item.attributesFor T names test).flatMap (item.attributeTasks T),
        by simp only [Item.expansion, hattr, if_true], ?_⟩
      rw [Item.attributesFor_eq, Place.along, if_pos hattr]
      exact offers_attributes hp _
  | namespaces => cases hs
  | descendant | descendantOrSelf | ancestor | ancestorOrSelf | following | preceding => cases hnear

/-- Expanding an item along an axis, other than the self axis, that the tree has offers the places
along that axis. -/
theorem exists_offers_along (hT : T.Grounded start) {item : Item N}
    (hp : T.Reaches start item.place) (hi : item.IsTruthful T names) (test : NodeTest) {axis : Axis}
    (hs : T.supports axis = true) (hself : axis ≠ .self) :
    ∃ tasks, item.expansion T names test (.along axis) = .ok tasks
      ∧ Offers T names start tasks (item.place.along T names test axis) := by
  cases axis with
  | descendant => exact ⟨_, rfl, offers_children_deep hT hp⟩
  | descendantOrSelf =>
      refine ⟨_, rfl, ?_⟩
      rw [Place.along, Place.subtree_eq (hT.below _ hp)]
      exact (offers_self item hp hi).cons
        (.expand (by decide) (fun _ => rfl) (offers_children_deep hT hp))
  | ancestor => exact ⟨_, rfl, offers_ancestors hT item hp⟩
  | ancestorOrSelf =>
      exact ⟨_, rfl, (offers_self item hp hi).cons
        (.expand (by decide) (fun _ => rfl) (offers_ancestors hT item hp))⟩
  | following => exact ⟨_, rfl, offers_followers hT item hp⟩
  | preceding => exact ⟨_, rfl, offers_predecessors hT item hp⟩
  | self | child | parent | followingSibling | precedingSibling | attributes | namespaces =>
      exact exists_offers_near hp test rfl hs hself

theorem expansion_of_not_supports {axis : Axis} (h : T.supports axis = false) (test : NodeTest)
    (item : Item N) : item.expansion T names test (.along axis) = .error axis := by
  cases axis <;> simp [Tree.supports] at h
  · simp [Item.expansion, h]
  · rfl

/-- A place that arrives at a step on an axis that the tree lacks makes the search fail. -/
theorem advance_of_not_supports {item : Item N} {step : Step} {after : List Step}
    (h : T.supports step.axis = false) (frames : List (Frame N)) :
    (⟨some (item, step :: after), frames⟩ : Search N).advance T names = .failed step.axis := by
  -- no tree lacks the self axis
  have hself : ¬ Mode.along step.axis = .along .self := by
    intro hmode
    rw [Mode.along.inj hmode] at h
    cases h
  simp only [advance, Frame.expand, if_neg hself, expansion_of_not_supports h]

/-! ## Paths -/

/-- A step is followed if the steps behind it are and expanding an item along its axis offers the
places along that axis. -/
theorem Follows.cons {s : Step} {rest : List Step} (hrest : Follows T names start rest)
    (haxis : ∀ item : Item N, T.Reaches start item.place → item.IsTruthful T names →
      T.supports s.axis = true → s.axis ≠ .self →
      ∃ tasks, item.expansion T names s.test (.along s.axis) = .ok tasks
        ∧ Offers T names start tasks (item.place.along T names s.test s.axis)) :
    Follows T names start (s :: rest) := by
  intro item frames a hp hi ha
  -- whatever its frame has seen, it is left behind when its tasks are done
  have hempty : ∀ cs, Yields T names ⟨none, (Frame.start s rest).past T names cs :: frames⟩ a :=
    fun cs => yields_of_tasks_nil rfl ha
  cases hs : T.supports s.axis with
  | false =>
      rw [Path.answersFrom_of_not_supports hs, Answers.failed_append]
      exact .failed (advance_of_not_supports hs frames)
  | true =>
      have hanswers : Path.answersFrom T names (s :: rest) item.place
          = (Frame.start s rest).answersOf T names
              (item.place.along T names s.test s.axis) := by
        rw [Path.answersFrom_cons hs, Step.selected, ← behindPosition_zero]
        rfl
      rw [hanswers]
      -- on the self axis the item is tested at once, on any other it leads to tasks
      by_cases hself : s.axis = .self
      · rw [hself]
        refine .moved ?_ (yields_test hrest hp hi (hempty _))
        simp only [advance, Frame.expand, hself, if_true]
      · have hmode : ¬ Mode.along s.axis = .along .self := fun h => hself (Mode.along.inj h)
        obtain ⟨tasks, ht, ho⟩ := haxis item hp hi hs hself
        refine .moved ?_ (ho (Frame.start s rest) frames a hrest (hempty _))
        have htest : (Frame.start s rest : Frame N).step.test = s.test := rfl
        simp only [advance, Frame.expand, if_neg hmode, htest, ht]

theorem follows_nil : Follows T names start [] := by
  intro item frames a hp hi ha
  exact .matched rfl ha

/-- What arrives at any steps yields the answers of those steps. -/
theorem follows (hT : T.Grounded start) (steps : List Step) : Follows T names start steps := by
  induction steps with
  | nil => exact follows_nil
  | cons s rest ih => exact .cons ih fun item hp hi => exists_offers_along hT hp hi s.test

/-- The same of steps that lead no further than next to where they begin, whatever the tree. -/
theorem follows_near {steps : List Step} (h : ∀ s ∈ steps, s.axis.isNear = true) :
    Follows T names start steps := by
  induction steps with
  | nil => exact follows_nil
  | cons s rest ih =>
      obtain ⟨hs, hrest⟩ := List.forall_mem_cons.mp h
      exact .cons (ih hrest) fun item hp _ => exists_offers_near hp s.test hs

/-- A search for a path from a grounded start comes to its end with the answers the path means. -/
theorem yields_start (hT : T.Grounded start) (steps : List Step) :
    Yields T names (Search.start steps start) (Path.answersFrom T names steps (.root start)) := by
  have h : Yields T names (Search.start steps start)
      (Path.answersFrom T names steps (.root start) ++ .nothing) :=
    follows hT steps (.fresh (.root start)) [] .nothing .start (Item.isTruthful_fresh _)
      (.exhausted rfl)
  rwa [Answers.append_nothing] at h

end Search

/-! ## Queries -/

namespace Query

/-- A run of a query yields what its search yields, if that comes to an end. -/
theorem exists_run_of_yields {s : Search N} {a : Answers N} (h : s.Yields T names a)
    (taken : Nat) : ∃ n, (⟨T, names, s, taken, none⟩ : Query N).run n = a := by
  induction h generalizing taken with
  | exhausted h =>
      refine ⟨1, ?_⟩
      simp only [run, advance_of_not_isSpent, isSpent_of_unlimited, h]
      rfl
  | moved h _ ih =>
      obtain ⟨n, hn⟩ := ih (taken + 1)
      refine ⟨n + 1, ?_⟩
      simp only [run, advance_of_not_isSpent, isSpent_of_unlimited, h]
      exact hn
  | matched h _ ih =>
      obtain ⟨n, hn⟩ := ih (taken + 1)
      refine ⟨n + 1, ?_⟩
      simp only [run, advance_of_not_isSpent, isSpent_of_unlimited, h, hn]
      rfl
  | failed h =>
      refine ⟨1, ?_⟩
      simp only [run, advance_of_not_isSpent, isSpent_of_unlimited, h]

/-- A query for a path from a grounded start comes to its end with the answers the path means, and
they stay the same however much longer it is run. -/
theorem exists_run_eq_answers (path : Path) (hT : T.Grounded start) :
    ∃ n, ∀ m, n ≤ m → (Query.start T path start none).run m = path.answers T start := by
  have hyields : (Search.start path.steps start).Yields T path.names (path.answers T start) :=
    Search.yields_start hT path.steps
  obtain ⟨n, hn⟩ := exists_run_of_yields hyields 0
  have hrun : (Query.start T path start none).run n = path.answers T start := hn
  refine ⟨n, fun m hm => ?_⟩
  rw [run_eq_of_le _ hm, hrun]
  rw [hrun]
  exact path.ending_answers T start

end Query

end JsonAxes
