import JsonAxes.Proofs.Tree.Walk
import JsonAxes.Tree.Table
import Mathlib.Order.WellFounded
import Mathlib.Data.Fintype.EquivFin
import Mathlib.Data.Set.Finite.Lattice
import Mathlib.Order.RelClasses

/-!
# Trees that end

A start is grounded exactly if there is no infinite sequence of children from a node that is reached
and no infinite sequence of parents from the start (`Tree.grounded_iff`).

A walk through a node table ends if no node of the table is below itself and the parents of the
start are finitely many.
-/

set_option autoImplicit false

namespace JsonAxes

universe u

/-! ## Walks without end -/

namespace Tree

variable {N : Type u} {T : Tree N}

/-- The ways down from a node end if there is no infinite one. -/
theorem endsBelow_iff {n : N} :
    T.EndsBelow n ↔ ¬ ∃ f : Nat → N, f 0 = n ∧ ∀ i, T.IsChild (f (i + 1)) (f i) := by
  rw [← not_acc_iff_exists_descending_chain, not_not, EndsBelow]

theorem up?_root_eq_some_iff {n : N} {p : Place N} :
    (Place.root n).up? T = some p
      ↔ T.knowsParents = true ∧ T.parent? n = some p.node ∧ p = .root p.node := by
  simp only [Place.up?]
  split
  · next hknows =>
    rw [Option.map_eq_some_iff]
    constructor
    · rintro ⟨m, hm, rfl⟩
      exact ⟨hknows, hm, rfl⟩
    · rintro ⟨-, hm, hp⟩
      exact ⟨p.node, hm, hp.symm⟩
  · next hknows => exact ⟨nofun, fun h => absurd h.1 hknows⟩

/-- The way up from a start ends if there is no infinite sequence of parents, or if nobody asks for
them. -/
theorem endsAbove_root_iff {n : N} :
    T.EndsAbove (.root n) ↔ (T.knowsParents = true →
      ¬ ∃ f : Nat → N, f 0 = n ∧ ∀ i, T.parent? (f i) = some (f (i + 1))) := by
  rw [EndsAbove, ← not_iff_not, not_acc_iff_exists_descending_chain]
  simp only [Classical.not_imp, not_not, IsAbove]
  constructor
  · rintro ⟨g, hstart, hup⟩
    -- all along the way there are starts, each known to be the parent of the one before
    have hroot : ∀ i, g i = .root (g i).node := by
      intro i
      induction i with
      | zero => rw [hstart, Place.node]
      | succ i ih =>
          have hi := hup i
          rw [ih] at hi
          exact (up?_root_eq_some_iff.mp hi).2.2
    have hparent : ∀ i, T.knowsParents = true ∧ T.parent? (g i).node = some (g (i + 1)).node := by
      intro i
      have hi := hup i
      rw [hroot i] at hi
      obtain ⟨hknows, hnode, -⟩ := up?_root_eq_some_iff.mp hi
      exact ⟨hknows, hnode⟩
    have hnode : (g 0).node = n := by rw [hstart, Place.node]
    exact ⟨(hparent 0).1, fun i => (g i).node, hnode, fun i => (hparent i).2⟩
  · rintro ⟨hknows, f, hstart, hparent⟩
    refine ⟨fun i => .root (f i), congrArg Place.root hstart, ?_⟩
    intro i
    exact up?_root_eq_some_iff.mpr ⟨hknows, hparent i, rfl⟩

/-- A start is grounded if no walk from it goes on forever. -/
theorem grounded_iff {start : N} :
    T.Grounded start
      ↔ (∀ p, T.Reaches start p →
          ¬ ∃ f : Nat → N, f 0 = p.node ∧ ∀ i, T.IsChild (f (i + 1)) (f i))
        ∧ (T.knowsParents = true →
          ¬ ∃ f : Nat → N, f 0 = start ∧ ∀ i, T.parent? (f i) = some (f (i + 1))) := by
  constructor
  · intro h
    exact ⟨fun p hp => endsBelow_iff.mp (h.below p hp), endsAbove_root_iff.mp h.above⟩
  · rintro ⟨hbelow, habove⟩
    exact ⟨fun p hp => endsBelow_iff.mpr (hbelow p hp), endsAbove_root_iff.mpr habove⟩

end Tree

/-! ## Trees without cycles -/

/-- A relation that leads to only finitely many elements, and from none of them back to itself, ends
everywhere. -/
theorem acc_of_finite {α : Type u} {r : α → α → Prop} (hfinite : {b | ∃ a, r a b}.Finite)
    (hacyclic : ∀ a, ¬ Relation.TransGen r a a) (b : α) : Acc r b := by
  have : Finite {b | ∃ a, r a b} := hfinite
  let before (b c : {b | ∃ a, r a b}) : Prop := Relation.TransGen r b c
  have : IsTrans _ before := ⟨fun _ _ _ hbc hcd => hbc.trans hcd⟩
  have : Std.Irrefl before := ⟨fun b hb => hacyclic b hb⟩
  have hwf : WellFounded before := Finite.wellFounded_of_trans_of_irrefl before
  have hacc : ∀ c : {b | ∃ a, r a b}, Acc r c := by
    intro c
    induction c using hwf.induction with
    | h c ih =>
        refine ⟨_, fun b hb => ?_⟩
        by_cases hmore : ∃ a, r a b
        · exact ih ⟨b, hmore⟩ (.single hb)
        · exact ⟨_, fun a ha => absurd ⟨a, ha⟩ hmore⟩
  by_cases hmore : ∃ a, r a b
  · exact hacc ⟨b, hmore⟩
  · exact ⟨_, fun a ha => absurd ⟨a, ha⟩ hmore⟩

namespace Tree

variable {N : Type u} {T : Tree N}

/-- Whether finitely many nodes have children and no node is below itself. -/
structure IsFinite (T : Tree N) : Prop where
  finite : {n | T.children n ≠ []}.Finite
  acyclic : ∀ n, ¬ Relation.TransGen T.IsChild n n

/-- Every way down through a finite tree ends. -/
theorem IsFinite.endsBelow (h : T.IsFinite) (n : N) : T.EndsBelow n := by
  refine acc_of_finite (h.finite.subset ?_) h.acyclic n
  rintro m ⟨child, hchild⟩
  exact List.ne_nil_of_mem hchild

/-- Every way from child to owner through a finite tree ends. -/
theorem IsFinite.acc_owner (h : T.IsFinite) (n : N) :
    Acc (fun owner child => T.IsChild child owner) n := by
  have hchildren : {child | ∃ owner, T.IsChild child owner}.Finite := by
    refine (h.finite.biUnion fun n _ => (T.children n).finite_toSet).subset ?_
    rintro child ⟨owner, howner⟩
    exact Set.mem_biUnion (List.ne_nil_of_mem howner) howner
  refine acc_of_finite hchildren (fun m hm => h.acyclic m ?_) n
  exact Relation.transGen_swap.mp hm

end Tree

/-! ## Node tables -/

namespace NodeTable

/-- Whether no node of a table is below itself. -/
def IsAcyclic (t : NodeTable) : Prop := ∀ n, ¬ Relation.TransGen t.tree.IsChild n n

theorem lt_size_of_isChild {t : NodeTable} {child n : Nat} (h : t.tree.IsChild child n) :
    n < t.rows.size := by
  by_contra hn
  have hrow : t.rows[n]? = none := Array.getElem?_eq_none (Nat.le_of_not_lt hn)
  simp only [Tree.IsChild, tree, row, hrow, Option.getD_none, List.not_mem_nil] at h

/-- A table in which every child has a larger number has no cycles. -/
theorem isAcyclic_of_lt {t : NodeTable}
    (h : ∀ n < t.rows.size, ∀ child ∈ t.tree.children n, n < child) : t.IsAcyclic := by
  have hlt : ∀ {a b}, Relation.TransGen t.tree.IsChild a b → b < a := by
    intro a b hab
    induction hab with
    | single hc => exact h _ (lt_size_of_isChild hc) _ hc
    | tail _ hc ih => exact Nat.lt_trans (h _ (lt_size_of_isChild hc) _ hc) ih
  exact fun n hn => Nat.lt_irrefl n (hlt hn)

/-- A table without cycles is a finite tree, as its rows are finitely many. -/
theorem IsAcyclic.isFinite {t : NodeTable} (h : t.IsAcyclic) : t.tree.IsFinite := by
  refine ⟨(Set.finite_lt_nat t.rows.size).subset fun n hn => ?_, h⟩
  obtain ⟨child, hchild⟩ := List.exists_mem_of_ne_nil _ hn
  exact lt_size_of_isChild hchild

/-- In a table without cycles a node above which there is an end is grounded. -/
theorem IsAcyclic.grounded {t : NodeTable} (h : t.IsAcyclic) {start : Nat}
    (hs : t.tree.EndsAbove (.root start)) : t.tree.Grounded start where
  below p _ := h.isFinite.endsBelow p.node
  above := hs

end NodeTable

end JsonAxes
