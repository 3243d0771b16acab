import JsonAxes.Proofs.Tree.Grounded
import Mathlib.Data.List.Forall2

/-!
# Places with the same node

What lies below a place depends on its node alone, so places with the same node have below them
places with the same nodes, one by one (`Place.forall₂_subtree`). What lies above depends on the
route as well: it leads back along the children that were gone through, and the tree's own links
may say something else. In a consistent tree (`Tree.IsConsistent`) they say the same. There places
that were reached through children alone (`Place.Descends`) and have the same node have the same
nodes above them (`Place.forall₂_ancestors`).
-/

set_option autoImplicit false

namespace JsonAxes

universe u

variable {N : Type u} {T : Tree N}

/-! ## Consistent trees -/

/-- Whether a tree is finite and its nodes know their parents: those whose children they are. -/
structure Tree.IsConsistent (T : Tree N) : Prop where
  isFinite : T.IsFinite
  knowsParents : T.knowsParents = true
  parent?_eq_some_iff : ∀ child n, T.parent? child = some n ↔ T.IsChild child n

namespace Tree.IsConsistent

theorem endsAbove_root (hT : T.IsConsistent) (n : N) : T.EndsAbove (.root n) := by
  have howner := hT.isFinite.acc_owner n
  induction howner with
  | intro n _ ih =>
      refine endsAbove_of_up? fun q hq => ?_
      obtain ⟨-, hparent, hroot⟩ := up?_root_eq_some_iff.mp hq
      rw [hroot]
      exact ih q.node ((hT.parent?_eq_some_iff n q.node).mp hparent)

/-- Every way up ends: first the route, then the parents above its beginning. -/
theorem endsAbove (hT : T.IsConsistent) (p : Place N) : T.EndsAbove p := by
  induction p with
  | root n => exact hT.endsAbove_root n
  | within owner index? n ih =>
      refine endsAbove_of_up? fun q hq => ?_
      cases hq
      exact ih

theorem grounded (hT : T.IsConsistent) (start : N) : T.Grounded start where
  below p _ := hT.isFinite.endsBelow p.node
  above := hT.endsAbove_root start

end Tree.IsConsistent

namespace Place

/-! ## Below places with the same node -/

/-- Whether two places have the same node, whatever way it was reached. -/
def SameNode (p q : Place N) : Prop := p.node = q.node

theorem forall₂_mapIdx {α β : Type u} {R : β → β → Prop} {f g : Nat → α → β}
    (h : ∀ i a, R (f i a) (g i a)) (l : List α) :
    List.Forall₂ R (l.mapIdx f) (l.mapIdx g) := by
  induction l generalizing f g with
  | nil => exact .nil
  | cons a l ih =>
      rw [List.mapIdx_cons, List.mapIdx_cons]
      exact .cons (h 0 a) (ih fun i b => h (i + 1) b)

theorem forall₂_childPlaces {p q : Place N} (h : p.SameNode q) :
    List.Forall₂ SameNode (p.childPlaces T) (q.childPlaces T) := by
  rw [childPlaces, childPlaces, show q.node = p.node from h.symm]
  refine forall₂_mapIdx (fun i n => ?_) (T.children p.node)
  show (p.child i n).node = (q.child i n).node
  rfl

/-- The children of places with the same node have below them what has the same nodes, if this holds
of each child. -/
theorem forall₂_descendants_of_children {p q : Place N} (h : p.SameNode q)
    (hbelow : ∀ a ∈ p.childPlaces T, ∀ b, a.SameNode b →
      List.Forall₂ SameNode (a.subtree T) (b.subtree T)) :
    List.Forall₂ SameNode (p.descendants T) (q.descendants T) := by
  have hchildren : List.Forall₂ (fun a b => a ∈ p.childPlaces T ∧ a.SameNode b)
      (p.childPlaces T) (q.childPlaces T) :=
    (List.forall₂_and_left _ _).mpr ⟨fun _ ha => ha, forall₂_childPlaces h⟩
  exact List.rel_flatMap hchildren fun a b hab => hbelow a hab.1 b hab.2

/-- Places with the same node have the same nodes below them. -/
theorem forall₂_subtree {p q : Place N} (hends : T.EndsBelow p.node) (h : p.SameNode q) :
    List.Forall₂ SameNode (p.subtree T) (q.subtree T) := by
  obtain ⟨n, hn⟩ : ∃ n, n = p.node := ⟨_, rfl⟩
  rw [← hn] at hends
  induction hends generalizing p q with
  | intro n hacc ih =>
      subst hn
      have hq : T.EndsBelow q.node := h ▸ (⟨_, hacc⟩ : T.EndsBelow p.node)
      rw [subtree_eq ⟨_, hacc⟩, subtree_eq hq]
      refine .cons h (forall₂_descendants_of_children h fun a ha b hab => ?_)
      exact ih a.node (node_mem_of_mem_childPlaces ha) hab rfl

theorem forall₂_descendants {p q : Place N} (hends : ∀ n, T.EndsBelow n) (h : p.SameNode q) :
    List.Forall₂ SameNode (p.descendants T) (q.descendants T) :=
  forall₂_descendants_of_children h fun a _ _ hab => forall₂_subtree (hends a.node) hab

/-! ## Places reached through children -/

/-- Whether a place was reached from its topmost node through children alone. -/
def Descends (T : Tree N) : Place N → Prop
  | root _ => True
  | within owner _ n => T.IsChild n owner.node ∧ owner.Descends T

namespace Descends

variable {p q : Place N}

theorem of_mem_childPlaces (hp : p.Descends T) (hq : q ∈ p.childPlaces T) : q.Descends T := by
  obtain ⟨i, hi, rfl⟩ := List.mem_mapIdx.mp hq
  exact ⟨List.getElem_mem hi, hp⟩

theorem of_up? (hp : p.Descends T) (hq : p.up? T = some q) : q.Descends T := by
  cases p with
  | root n =>
      rw [(Tree.up?_root_eq_some_iff.mp hq).2.2]
      trivial
  | within owner index? n =>
      cases hq
      exact hp.2

theorem of_mem_subtree (hp : p.Descends T) (hends : T.EndsBelow p.node)
    (hq : q ∈ p.subtree T) : q.Descends T := by
  obtain ⟨n, hn⟩ : ∃ n, n = p.node := ⟨_, rfl⟩
  rw [← hn] at hends
  induction hends generalizing p with
  | intro n hacc ih =>
      subst hn
      rw [subtree_eq ⟨_, hacc⟩] at hq
      rcases List.mem_cons.mp hq with rfl | hq
      · exact hp
      · obtain ⟨child, hchild, hq⟩ := List.mem_flatMap.mp hq
        exact ih child.node (node_mem_of_mem_childPlaces hchild) (hp.of_mem_childPlaces hchild) hq
          rfl

theorem of_mem_descendants (hp : p.Descends T) (hends : ∀ n, T.EndsBelow n)
    (hq : q ∈ p.descendants T) : q.Descends T := by
  obtain ⟨child, hchild, hq⟩ := List.mem_flatMap.mp hq
  exact (hp.of_mem_childPlaces hchild).of_mem_subtree (hends child.node) hq

theorem of_mem_ancestors (hp : p.Descends T) (hends : T.EndsAbove p)
    (hq : q ∈ p.ancestors T) : q.Descends T := by
  induction hends with
  | intro p hacc ih =>
      cases hup : p.up? T with
      | none =>
          rw [ancestors_of_top hup] at hq
          cases hq
      | some above =>
          rw [ancestors_of_up? ⟨_, hacc⟩ hup] at hq
          rcases List.mem_cons.mp hq with rfl | hq
          · exact hp.of_up? hup
          · exact ih above hup (hp.of_up? hup) hq

theorem of_mem_ancestorsOrSelf (hp : p.Descends T) (hends : T.EndsAbove p)
    (hq : q ∈ p :: p.ancestors T) : q.Descends T := by
  rcases List.mem_cons.mp hq with rfl | hq
  · exact hp
  · exact hp.of_mem_ancestors hends hq

theorem of_mem_siblings (hp : p.Descends T) {part : Nat → List (Place N) → List (Place N)}
    (hpart : ∀ i l, part i l ⊆ l) (hq : q ∈ p.siblings T part) : q.Descends T := by
  rcases p with n | ⟨owner, _ | i, n⟩
  · cases hq
  · cases hq
  · exact hp.2.of_mem_childPlaces (hpart i _ hq)

/-- Siblings of a place and of the places above it, with everything below them, were reached through
children as the place was. -/
theorem of_mem_siblingSubtrees (hp : p.Descends T) (hbelow : ∀ n, T.EndsBelow n)
    (habove : T.EndsAbove p) {part : Nat → List (Place N) → List (Place N)}
    (hpart : ∀ i l, part i l ⊆ l) {above sibling : Place N} (ha : above ∈ p :: p.ancestors T)
    (hs : sibling ∈ above.siblings T part) (hq : q ∈ sibling.subtree T) : q.Descends T := by
  have hsibling := (hp.of_mem_ancestorsOrSelf habove ha).of_mem_siblings hpart hs
  exact hsibling.of_mem_subtree (hbelow sibling.node) hq

end Descends

/-! ## Above places with the same node -/

/-- In a consistent tree the way up leads to the parent, by whichever route. -/
theorem map_node_up? (hT : T.IsConsistent) {p : Place N} (hp : p.Descends T) :
    (p.up? T).map node = T.parent? p.node := by
  cases p with
  | root n =>
      rw [up?, if_pos hT.knowsParents, Option.map_map]
      exact congrFun Option.map_id (T.parent? n)
  | within owner index? n => exact ((hT.parent?_eq_some_iff n owner.node).mpr hp.1).symm

/-- In a consistent tree, neither of two places with the same node has a place above, or both have,
and these have the same node. -/
theorem up?_eq_none_or_sameNode (hT : T.IsConsistent) {p q : Place N} (hp : p.Descends T)
    (hq : q.Descends T) (h : p.SameNode q) :
    (p.up? T = none ∧ q.up? T = none)
    ∨ ∃ above above', p.up? T = some above ∧ q.up? T = some above' ∧ above.SameNode above' := by
  have hup : (q.up? T).map node = (p.up? T).map node := by
    rw [map_node_up? hT hp, map_node_up? hT hq, show p.node = q.node from h]
  cases habove : p.up? T with
  | none =>
      rw [habove, Option.map_none, Option.map_eq_none_iff] at hup
      exact .inl ⟨rfl, hup⟩
  | some above =>
      rw [habove, Option.map_some, Option.map_eq_some_iff] at hup
      obtain ⟨above', habove', hnode⟩ := hup
      exact .inr ⟨above, above', rfl, habove', hnode.symm⟩

theorem forall₂_up? (hT : T.IsConsistent) {p q : Place N} (hp : p.Descends T)
    (hq : q.Descends T) (h : p.SameNode q) :
    List.Forall₂ SameNode (p.up? T).toList (q.up? T).toList := by
  rcases up?_eq_none_or_sameNode hT hp hq h with ⟨hup, hup'⟩ | ⟨above, above', hup, hup', hnode⟩
  · rw [hup, hup']
    exact .nil
  · rw [hup, hup']
    exact .cons hnode .nil

/-- In a consistent tree, places with the same node have the same nodes above them. -/
theorem forall₂_ancestors (hT : T.IsConsistent) {p q : Place N} (hp : p.Descends T)
    (hq : q.Descends T) (h : p.SameNode q) :
    List.Forall₂ SameNode (p.ancestors T) (q.ancestors T) := by
  have hends := hT.endsAbove p
  induction hends generalizing q with
  | intro p hacc ih =>
      rcases up?_eq_none_or_sameNode hT hp hq h with
        ⟨hup, hup'⟩ | ⟨above, above', hup, hup', hnode⟩
      · rw [ancestors_of_top hup, ancestors_of_top hup']
        exact .nil
      · rw [ancestors_of_up? ⟨_, hacc⟩ hup, ancestors_of_up? (hT.endsAbove q) hup']
        exact .cons hnode (ih above hup (hp.of_up? hup) (hq.of_up? hup') hnode)

end Place

/-! ## Consistent node tables -/

/-- A table is a consistent tree if children have larger numbers and exactly they name their owner
as the parent. -/
theorem NodeTable.isConsistent_of_lt {t : NodeTable} (hknows : t.knowsParents = true)
    (hchildren : ∀ n < t.rows.size, ∀ child ∈ t.tree.children n,
      n < child ∧ t.tree.parent? child = some n)
    (hparents : ∀ child < t.rows.size, ∀ n ∈ t.tree.parent? child,
      child ∈ t.tree.children n) : t.tree.IsConsistent where
  isFinite := (isAcyclic_of_lt fun n hn child hchild => (hchildren n hn child hchild).1).isFinite
  knowsParents := hknows
  parent?_eq_some_iff child n := by
    constructor
    · intro hparent
      refine hparents child ?_ n hparent
      -- a number without a row has no parent
      by_contra hrow
      have hnone : t.rows[child]? = none := Array.getElem?_eq_none (Nat.le_of_not_lt hrow)
      simp [tree, row, hnone] at hparent
    · intro hchild
      exact (hchildren n (lt_size_of_isChild hchild) child hchild).2

end JsonAxes
