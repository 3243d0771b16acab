import JsonAxes.Proofs.Query.Matched

/-!
# Routes

Every item that a query of a document holds stands where a route through the document leads: at the
root, or at a child or an attribute of the node above it, which stands where a route leads as well
(`Place.IsRoute`). Every cursor has before it the children of the node at its route, from its index
on and up to where it stops, and what an item remembers of its tag is right.

All this holds of what is really there in a tree, which one expansion after another keeps
(`Query.IsReal.comesTo`): since a document does not know the parents of its nodes, its root is the
only start, and whatever is reached is reached by a route (`Node.isRoute_of_reaches`).
`Document.holds_routes` puts it together for every state that a query comes to.
-/

set_option autoImplicit false

namespace JsonAxes

universe u

variable {N : Type u}

/-! ## States of a query -/

namespace Query

/-- The query that an expansion leaves, if there was anything to expand. -/
def Progress.left? : Progress N → Option (Query N)
  | .exhausted => none
  | .working q => some q
  | .matched _ q => some q
  | .failed _ q => some q

/-- The states that a query comes to, one expansion after another. -/
inductive ComesTo (q : Query N) : Query N → Prop where
  | start : ComesTo q q
  | advance {q' q'' : Query N} (h : ComesTo q q') (hleft : q'.advance.left? = some q'') :
      ComesTo q q''

/-- What one expansion keeps, a query keeps in all states that it comes to. -/
theorem IsReal.comesTo {T : Tree N} {path : Path} {start : N} {q q' : Query N}
    (hq : q.IsReal T path start) (h : q.ComesTo q') : q'.IsReal T path start := by
  induction h with
  | start => exact hq
  | @advance q' q'' _ hleft ih =>
      have hreal := ih.advance
      cases hadvance : q'.advance with
      | exhausted =>
          rw [hadvance] at hleft
          cases hleft
      | working q =>
          rw [hadvance] at hleft hreal
          cases hleft
          exact hreal
      | matched p q =>
          rw [hadvance] at hleft hreal
          cases hleft
          exact hreal.2
      | failed e q =>
          rw [hadvance] at hleft hreal
          cases hleft
          exact hreal

end Query

/-! ## What a search holds -/

namespace Task

/-- The item that a task is about. -/
def item : Task N → Item N
  | expand _ item => item
  | resume _ item _ => item

/-- The cursor by which a task goes on. -/
def cursor? : Task N → Option (Cursor N)
  | expand _ _ => none
  | resume _ _ cursor => some cursor

end Task

namespace Search

/-- The items that a search holds: the one that has arrived, and those that are to be expanded or
are expanded in part. -/
def items (s : Search N) : List (Item N) :=
  s.arrived?.toList.map Prod.fst ++ s.frames.flatMap fun f => f.tasks.map Task.item

/-- The cursors that a search holds. -/
def cursors (s : Search N) : List (Cursor N) :=
  s.frames.flatMap fun f => f.tasks.filterMap Task.cursor?

variable {T : Tree N} {path : Path} {start : N} {s : Search N}

theorem IsReal.of_mem_items (h : s.IsReal T path start) {item : Item N} (hi : item ∈ s.items) :
    item.IsReal T path start := by
  rcases List.mem_append.mp hi with hi | hi
  · obtain ⟨⟨_, rest⟩, harrived, rfl⟩ := List.mem_map.mp hi
    exact (h.arrived _ rest (Option.mem_toList.mp harrived)).1
  · obtain ⟨f, hf, hi⟩ := List.mem_flatMap.mp hi
    obtain ⟨t, ht, rfl⟩ := List.mem_map.mp hi
    have hreal := (h.frames f hf).tasks t ht
    cases hreal with
    | expand hm hitem => exact hitem
    | resume hitem hc => exact hitem

theorem IsReal.of_mem_cursors (h : s.IsReal T path start) {c : Cursor N} (hc : c ∈ s.cursors) :
    c.IsReal T start := by
  obtain ⟨f, hf, hc⟩ := List.mem_flatMap.mp hc
  obtain ⟨t, ht, hcursor⟩ := List.mem_filterMap.mp hc
  have hreal := (h.frames f hf).tasks t ht
  cases hreal with
  | expand hm hi => cases hcursor
  | resume hi hc =>
      cases hcursor
      exact hc

end Search

/-- The children that a cursor has left are those from its index on, up to where it stops. -/
theorem Cursor.left_eq {c : Cursor N} {children : List N} (h : c.rest = children.drop c.index) :
    c.left = ((c.stop?.map children.take).getD children).drop c.index := by
  rw [left, h]
  cases c.stop? with
  | none => rfl
  | some stop =>
      change (children.drop c.index).take (stop - c.index) = (children.take stop).drop c.index
      exact List.drop_take.symm

/-! ## Routes through a document -/

/-- Whether a place is where a route through a document leads. -/
inductive Place.IsRoute (v : Value) : Place Node → Prop where
  /-- The root of the document, which is above everything else. -/
  | root : IsRoute v (.root (.root v))
  /-- The child with an index of the node at a route. -/
  | child {owner : Place Node} {i : Nat} {n : Node} (howner : IsRoute v owner)
      (hn : owner.node.children[i]? = some n) : IsRoute v (.within owner (some i) n)
  /-- An attribute of the node at a route. -/
  | attr {owner : Place Node} {name : String} {n : Node} (howner : IsRoute v owner)
      (hn : owner.node.attribute? name = some n) : IsRoute v (.within owner none n)

/-- Whatever is reached in a document is reached by a route. -/
theorem Node.isRoute_of_reaches {v : Value} {p : Place Node}
    (hp : tree.Reaches (root v) p) : p.IsRoute v := by
  induction hp with
  | start => exact .root
  | @up p above _ hup ih =>
      -- the way up from a route is the one that it came
      cases ih with
      | root => cases hup
      | child howner _ =>
          cases hup
          exact howner
      | attr howner _ =>
          cases hup
          exact howner
  | child _ hn ih => exact .child ih hn
  | attr _ hn ih => exact .attr ih hn

/-- **All that a query of a document holds is really there.** In every state that a query comes to,
each of its items, those that are expanded in part included, stands where a route through the
document leads, and if it remembers the number of its tag, this is the number of the tag of its own
node. Each of its cursors visits the children of the node where a route leads: those from its index
on, up to where it stops. -/
theorem Document.holds_routes (path : Path) (v : Value) (limit? : Option Nat) (q : Query Node)
    (h : (query path v limit?).ComesTo q) :
    (∀ item ∈ q.search.items, item.place.IsRoute v
      ∧ ∀ tag, item.tag? = some tag → tag = path.names.lookup? item.place.node.tag)
    ∧ ∀ c ∈ q.search.cursors, c.owner.IsRoute v ∧ c.rest = c.owner.node.children.drop c.index
      ∧ c.left = ((c.stop?.map c.owner.node.children.take).getD c.owner.node.children).drop
        c.index := by
  have hstart : (query path v limit?).IsReal Node.tree path (Node.root v) :=
    ⟨rfl, rfl, Search.isReal_start path (Node.root v)⟩
  have hreal := (hstart.comesTo h).search
  constructor
  · intro item hi
    have hitem := hreal.of_mem_items hi
    exact ⟨Node.isRoute_of_reaches hitem.reached, hitem.truthful⟩
  · intro c hc
    have hcursor := hreal.of_mem_cursors hc
    exact ⟨Node.isRoute_of_reaches hcursor.reached, hcursor.rest_eq,
      Cursor.left_eq hcursor.rest_eq⟩

/-- In the array `[null, true]`, `child::*/preceding-sibling::null` comes to a state in which the
first element has just passed the second test, so that the number of its tag is remembered. The
second element is expanded in part, by a cursor that has come to where it stops, and so is the
array, by another one that has no child left. -/
theorem Document.holds_routes_precedingSibling :
    let document : Value := .array [.null, .bool true]
    let path := (Path.empty.step .child "*").step .precedingSibling "null"
    ∃ q first second root, (query path document none).ComesTo q
      ∧ q.search.items = [first, second, root]
      ∧ (first.place.node = .value none .null ∧ first.tag? = some (some 0)
        ∧ first.place.IsRoute document)
      ∧ (second.place.node = .value none (.bool true) ∧ second.place.IsRoute document)
      ∧ (root.place.node = .root document ∧ root.place.IsRoute document)
      ∧ ∃ inner outer, q.search.cursors = [inner, outer]
        ∧ (inner.stop? = some 1 ∧ inner.owner.IsRoute document
          ∧ inner.left = (inner.owner.node.children.take 1).drop inner.index)
        ∧ outer.owner.IsRoute document
        ∧ outer.rest = outer.owner.node.children.drop outer.index := by
  intro document path
  let top : Place Node := .root (.root document)
  let first : Item Node := ⟨top.child 0 (.value none .null), some (some 0)⟩
  let second : Item Node := ⟨top.child 1 (.value none (.bool true)), none⟩
  let inner : Cursor Node := ⟨top, 1, some 1, [.value none (.bool true)], .along .self⟩
  let outer : Cursor Node := ⟨top, 2, none, [], .along .self⟩
  let named : Step := ⟨.precedingSibling, .name 0, none⟩
  let q : Query Node := ⟨Node.tree, path.names, ⟨some (first, []),
    [⟨named, [], 1, [.resume (.along .precedingSibling) second inner]⟩,
      ⟨⟨.child, .wildcard, none⟩, [named], 2, [.resume (.along .child) (.fresh top) outer]⟩]⟩,
    7, none⟩
  have h : (query path document none).ComesTo q :=
    .advance (.advance (.advance (.advance (.advance (.advance (.advance
      .start rfl) rfl) rfl) rfl) rfl) rfl) rfl
  obtain ⟨hitems, hcursors⟩ := holds_routes path document none q h
  obtain ⟨hinner, -, hleft⟩ := hcursors inner (.head _)
  obtain ⟨houter, hrest, -⟩ := hcursors outer (.tail _ (.head _))
  exact ⟨q, first, second, .fresh top, h, rfl, ⟨rfl, rfl, (hitems first (.head _)).1⟩,
    ⟨rfl, (hitems second (.tail _ (.head _))).1⟩,
    ⟨rfl, (hitems (.fresh top) (.tail _ (.tail _ (.head _)))).1⟩, inner, outer, rfl,
    ⟨rfl, hinner, hleft⟩, houter, hrest⟩

end JsonAxes
