import JsonAxes.Proofs.Tree.Grounded
import JsonAxes.Query.Select

/-!
# Queries answer what paths mean

A query computes the answers that its path means (`Query.run_eq_answers`), on documents, on node
tables without cycles, and on every tree from a grounded start.
-/

set_option autoImplicit false

namespace JsonAxes

universe u

namespace Query

/-- **A query computes what its path means**, on every document, on every table without cycles from
every node above which there is an end, and on every tree whatever from every grounded start. -/
theorem run_eq_answers (path : Path) :
    (∀ v : Value, ∃ n, ∀ m, n ≤ m →
      (Document.query path v none).run m = path.answers Node.tree (.root v))
    ∧ (∀ (t : NodeTable) (start : Nat), t.IsAcyclic → t.tree.EndsAbove (.root start) →
      ∃ n, ∀ m, n ≤ m → (Query.start t.tree path start none).run m = path.answers t.tree start)
    ∧ ∀ (N : Type u) (T : Tree N) (start : N), T.Grounded start →
      ∃ n, ∀ m, n ≤ m → (Query.start T path start none).run m = path.answers T start := by
  refine ⟨fun v => ?_, fun t start ht hs => ?_, fun N T start hT => ?_⟩
  · exact exists_run_eq_answers path (Node.grounded (.root v))
  · exact exists_run_eq_answers path (ht.grounded hs)
  · exact exists_run_eq_answers path hT

/-- A table in which the last node is a child of two others, of the second of them twice. -/
def sharedChild : NodeTable where
  rows := #[⟨"r", none, [1, 2], []⟩, ⟨"a", some 0, [3], []⟩, ⟨"a", some 0, [3, 3], []⟩,
    ⟨"c", some 2, [], []⟩]
  knowsParents := true
  hasAttributes := false
  hasLinks := true

/-- From the second node to its parent, down to the third `c` and up to the `a` above that. -/
def upAndDown : Path :=
  (((Path.empty.step .parent "node()").step .descendant "c").nth 3).step .ancestor "a"

theorem run_eq_answers_sharedChild :
    (sharedChild.IsAcyclic ∧ sharedChild.tree.EndsAbove (.root 1) ∧ sharedChild.tree.Grounded 1)
    ∧ (upAndDown.answers sharedChild.tree 1).matched.map Place.node = [2] := by
  have hacyclic : sharedChild.IsAcyclic := NodeTable.isAcyclic_of_lt (by decide)
  have habove : sharedChild.tree.EndsAbove (.root 1) := by
    refine Tree.endsAbove_of_up? fun q hq => ?_
    cases hq
    exact Tree.endsAbove_of_up? fun q hq => nomatch hq
  have hgrounded : sharedChild.tree.Grounded 1 := hacyclic.grounded habove
  refine ⟨⟨hacyclic, habove, hgrounded⟩, ?_⟩
  obtain ⟨n, hn⟩ := (run_eq_answers upAndDown).2.2 Nat sharedChild.tree 1 hgrounded
  have hended : ((Query.start sharedChild.tree upAndDown 1 none).run 40).ending = .exhausted := rfl
  have hrun := run_eq_of_le (n := max n 40) (by rw [hended]; exact nofun) (Nat.le_max_right n 40)
  rw [← hn _ (Nat.le_max_left n 40), hrun]
  rfl

end Query

end JsonAxes
