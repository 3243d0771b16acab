import JsonAxes.Tree.Basic

/-!
# Walks through a tree

Where one gets from a place: to the places above it, nearest first (`Place.ancestors`), to the
places of its children (`Place.childPlaces`), to itself and everything below in pre-order
(`Place.subtree`), to its siblings, and to what follows and precedes it.

A tree may be walked without end, downwards through a cycle of children or upwards through a cycle
of parents. `Tree.EndsBelow` and `Tree.EndsAbove` say that it cannot; where it can, the lists are
cut short. A start is *grounded* (`Tree.Grounded`) if no walk from it goes on forever.
-/

set_option autoImplicit false

namespace JsonAxes

universe u

/-! ## Relations cut where they do not end -/

/-- A relation kept only in front of the elements from which it ends. -/
def Cut {α : Type u} (r : α → α → Prop) (a b : α) : Prop := r a b ∧ Acc r b

/-- A relation that is cut ends everywhere. -/
theorem wellFounded_cut {α : Type u} (r : α → α → Prop) : WellFounded (Cut r) := by
  refine ⟨fun b => ?_⟩
  by_cases hb : Acc r b
  · induction hb with
    | intro b _ ih => exact ⟨_, fun a hab => ih a hab.1⟩
  · exact ⟨_, fun a hab => absurd hab.2 hb⟩

variable {N : Type u}

namespace Tree

/-! ## Ways that end -/

/-- Whether a node is a child of another. -/
def IsChild (T : Tree N) (child n : N) : Prop := child ∈ T.children n

/-- Whether a place is the one above another. -/
def IsAbove (T : Tree N) (above p : Place N) : Prop := p.up? T = some above

/-- Whether every way down from a node ends. -/
def EndsBelow (T : Tree N) (n : N) : Prop := Acc T.IsChild n

/-- Whether the way up from a place ends. -/
def EndsAbove (T : Tree N) (p : Place N) : Prop := Acc T.IsAbove p

/-- The places that can be reached from a start, by going up, to a child or to an attribute. -/
inductive Reaches (T : Tree N) (start : N) : Place N → Prop where
  | start : Reaches T start (.root start)
  | up {p above : Place N} (hp : Reaches T start p) (h : p.up? T = some above) :
      Reaches T start above
  | child {p : Place N} {i : Nat} {n : N} (hp : Reaches T start p)
      (h : (T.children p.node)[i]? = some n) : Reaches T start (p.child i n)
  | attr {p : Place N} {name : String} {n : N} (hp : Reaches T start p)
      (h : T.attribute? p.node name = some n) : Reaches T start (p.attr n)

/-- No walk from a start goes on forever: not down from any place that is reached, and not up from
the start. -/
structure Grounded (T : Tree N) (start : N) : Prop where
  below : ∀ p, T.Reaches start p → T.EndsBelow p.node
  above : T.EndsAbove (.root start)

/-- Where the only way up leads to a place from which it ends, it ends. -/
theorem endsAbove_of_up? {T : Tree N} {p : Place N}
    (h : ∀ q, p.up? T = some q → T.EndsAbove q) : T.EndsAbove p :=
  ⟨_, fun q hq => h q hq⟩

/-- From a grounded start no place is reached from which the way up goes on forever. -/
theorem Grounded.endsAbove {T : Tree N} {start : N} (hT : T.Grounded start) {p : Place N}
    (hp : T.Reaches start p) : T.EndsAbove p := by
  induction hp with
  | start => exact hT.above
  | up _ h ih => exact ih.inv h
  | child _ _ ih =>
      refine endsAbove_of_up? fun q hq => ?_
      cases hq
      exact ih
  | attr _ _ ih =>
      refine endsAbove_of_up? fun q hq => ?_
      cases hq
      exact ih

end Tree

namespace Place

/-! ## The places above -/

open Classical in
/-- The places above a place, nearest first. -/
noncomputable def ancestors (T : Tree N) (p : Place N) : List (Place N) :=
  match _hq : p.up? T with
  | none => []
  -- cut where the way up does not end, as `Cut` demands of the recursion
  | some q => if _hp : T.EndsAbove p then q :: ancestors T q else []
  termination_by (wellFounded_cut T.IsAbove).wrap p
  decreasing_by exact ⟨_hq, _hp⟩

theorem ancestors_of_top {T : Tree N} {p : Place N} (h : p.up? T = none) :
    p.ancestors T = [] := by
  rw [ancestors]
  split
  · rfl
  · next q hq => rw [h] at hq; cases hq

theorem ancestors_of_up? {T : Tree N} {p q : Place N} (hp : T.EndsAbove p)
    (h : p.up? T = some q) : p.ancestors T = q :: q.ancestors T := by
  rw [ancestors]
  split
  · next hq => rw [h] at hq; cases hq
  · next q' hq =>
    rw [h] at hq
    cases hq
    rw [dif_pos hp]

/-! ## The places below -/

/-- The places of the children of the node at a place. -/
def childPlaces (T : Tree N) (p : Place N) : List (Place N) :=
  (T.children p.node).mapIdx fun i n => p.child i n

theorem node_mem_of_mem_childPlaces {T : Tree N} {p q : Place N} (h : q ∈ p.childPlaces T) :
    T.IsChild q.node p.node := by
  obtain ⟨i, hi, rfl⟩ := List.mem_mapIdx.mp h
  exact List.getElem_mem hi

open Classical in
/-- A place and the places below it, in pre-order. -/
noncomputable def subtree (T : Tree N) (p : Place N) : List (Place N) :=
  if _hp : T.EndsBelow p.node then
    p :: (p.childPlaces T).attach.flatMap fun ⟨q, _hq⟩ => subtree T q
  else []
  termination_by (wellFounded_cut T.IsChild).wrap p.node
  decreasing_by exact ⟨node_mem_of_mem_childPlaces _hq, _hp⟩

/-- The places below a place, in pre-order. -/
noncomputable def descendants (T : Tree N) (p : Place N) : List (Place N) :=
  (p.childPlaces T).flatMap (subtree T)

theorem subtree_eq {T : Tree N} {p : Place N} (h : T.EndsBelow p.node) :
    p.subtree T = p :: p.descendants T := by
  rw [subtree, dif_pos h, descendants]
  simp

/-! ## Siblings, and what follows and precedes -/

/-- The part of its owner's children's places that an index picks; an attribute has no index. -/
def siblings (T : Tree N) (part : Nat → List (Place N) → List (Place N)) : Place N → List (Place N)
  | within owner (some i) _ => part i (owner.childPlaces T)
  | _ => []

/-- The places of the siblings behind a place. -/
def laterSiblings (T : Tree N) (p : Place N) : List (Place N) :=
  p.siblings T fun i => List.drop (i + 1)

/-- The places of the siblings before a place. -/
def earlierSiblings (T : Tree N) (p : Place N) : List (Place N) := p.siblings T List.take

/-- The siblings behind a place, each with everything below it. -/
noncomputable def laterSubtrees (T : Tree N) (p : Place N) : List (Place N) :=
  (p.laterSiblings T).flatMap (subtree T)

/-- The siblings before a place, each with everything below it. -/
noncomputable def earlierSubtrees (T : Tree N) (p : Place N) : List (Place N) :=
  (p.earlierSiblings T).flatMap (subtree T)

/-- What follows a place: the siblings behind it and behind the places above it, with everything
below them. -/
noncomputable def followers (T : Tree N) (p : Place N) : List (Place N) :=
  (p :: p.ancestors T).flatMap (laterSubtrees T)

/-- What precedes a place: the siblings before the places above it and before itself, with
everything below them. -/
noncomputable def predecessors (T : Tree N) (p : Place N) : List (Place N) :=
  (p :: p.ancestors T).reverse.flatMap (earlierSubtrees T)

theorem followers_of_top {T : Tree N} {p : Place N} (h : p.up? T = none) :
    p.followers T = p.laterSubtrees T := by
  rw [followers, ancestors_of_top h, List.flatMap_singleton]

/-- What follows the place above comes behind the later siblings. -/
theorem followers_of_up? {T : Tree N} {p q : Place N} (hp : T.EndsAbove p)
    (h : p.up? T = some q) : p.followers T = p.laterSubtrees T ++ q.followers T := by
  rw [followers, ancestors_of_up? hp h, List.flatMap_cons, followers]

theorem predecessors_of_top {T : Tree N} {p : Place N} (h : p.up? T = none) :
    p.predecessors T = p.earlierSubtrees T := by
  rw [predecessors, ancestors_of_top h, List.reverse_singleton, List.flatMap_singleton]

/-- What precedes the place above comes before the earlier siblings. -/
theorem predecessors_of_up? {T : Tree N} {p q : Place N} (hp : T.EndsAbove p)
    (h : p.up? T = some q) : p.predecessors T = q.predecessors T ++ p.earlierSubtrees T := by
  rw [predecessors, ancestors_of_up? hp h, List.reverse_cons, List.flatMap_append,
    List.flatMap_singleton, predecessors]

end Place

end JsonAxes
