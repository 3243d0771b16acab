import JsonAxes.Proofs.Tree.Walk
import JsonAxes.Tree.Document

/-!
# Walks through a document

Every walk through a document ends: its values become smaller on the way down, and its nodes do not
know their parents (`Node.grounded`).
-/

set_option autoImplicit false

namespace JsonAxes

namespace Node

theorem sizeOf_lt_of_mem_childrenOf {v w : Value} {key? : Option String}
    (h : value key? w ∈ childrenOf v) : sizeOf w < sizeOf v := by
  cases v with
  | object ms =>
      obtain ⟨⟨k, u⟩, hm, he⟩ := List.mem_map.mp h
      cases he
      have := List.sizeOf_lt_of_mem hm
      simp only [Prod.mk.sizeOf_spec, Value.object.sizeOf_spec] at this ⊢
      omega
  | array vs =>
      obtain ⟨u, hm, he⟩ := List.mem_map.mp h
      cases he
      have := List.sizeOf_lt_of_mem hm
      simp only [Value.array.sizeOf_spec] at this ⊢
      omega
  | string | number | bool | null => cases h

/-- Every way down from a value ends. -/
theorem endsBelow_value (key? : Option String) (v : Value) : tree.EndsBelow (value key? v) := by
  obtain ⟨size, hsize⟩ : ∃ size, size = sizeOf v := ⟨_, rfl⟩
  induction size using Nat.strongRecOn generalizing key? v with
  | ind size ih =>
      subst hsize
      refine ⟨_, fun child hchild => ?_⟩
      cases child with
      | value key? w =>
          exact ih _ (sizeOf_lt_of_mem_childrenOf (v := v) hchild) key? w rfl
      | attr a => exact ⟨_, fun _ h => nomatch h⟩

theorem endsBelow (n : Node) : tree.EndsBelow n := by
  cases n with
  | value key? v => exact endsBelow_value key? v
  | attr a => exact ⟨_, fun _ h => nomatch h⟩

/-- Every node of a document is grounded. -/
theorem grounded (n : Node) : tree.Grounded n where
  below p _ := endsBelow p.node
  -- the nodes of a document do not know their parents
  above := ⟨_, fun _ h => nomatch h⟩

end Node

end JsonAxes
