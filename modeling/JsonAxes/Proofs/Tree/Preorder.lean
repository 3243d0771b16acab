import JsonAxes.Proofs.Tree.Documents
import JsonAxes.Proofs.Tree.Grounded
import Mathlib.Data.List.Perm.Lattice

/-!
# Document order

The values of a document in pre-order (`Document.places`), each at its place. They are what the walk
down from the root meets (`Document.subtree_root`), and `Place.number?` numbers them from zero on
(`Document.number?_places`). A walk down that ends meets no place twice, whatever the tree
(`Place.nodup_subtree`).

Seen from one of them, the others precede it, follow it, lie below it or lie above it. What precedes
it, it and what is below it, and what follows it make up the document without what lies above
(`Document.append_eq_filter`): the induction is on the way down to the place, and going down one
step takes the owner out of the list and leaves the rest as it is.
-/

set_option autoImplicit false

namespace JsonAxes

universe u

variable {N : Type u}

namespace Place

/-! ## The way up along the route -/

/-- The places on the way to a place, nearest first. -/
def above : Place N → List (Place N)
  | root _ => []
  | within owner _ _ => owner :: owner.above

/-- Every place is further from the start than the places on the way to it. -/
theorem length_above_lt_of_mem {p q : Place N} (h : q ∈ p.above) :
    q.above.length < p.above.length := by
  induction p with
  | root n => cases h
  | within owner index? n ih =>
      rw [above, List.length_cons]
      rcases List.mem_cons.mp h with rfl | h
      · exact Nat.lt_succ_self _
      · exact Nat.lt_succ_of_lt (ih h)

theorem nodup_above (p : Place N) : p.above.Nodup := by
  induction p with
  | root n => exact List.nodup_nil
  | within owner index? n ih =>
      refine List.nodup_cons.mpr ⟨fun h => ?_, ih⟩
      exact Nat.lt_irrefl _ (length_above_lt_of_mem h)

variable {T : Tree N}

/-- Where nodes do not know their parents, every way up ends. -/
theorem endsAbove_of_not_knowsParents (hT : T.knowsParents = false) (p : Place N) :
    T.EndsAbove p := by
  induction p with
  | root n =>
      refine Tree.endsAbove_of_up? fun q hq => ?_
      simp [up?, hT] at hq
  | within owner index? n ih =>
      refine Tree.endsAbove_of_up? fun q hq => ?_
      cases hq
      exact ih

/-- Where nodes do not know their parents, the only way up is the one that was taken down. -/
theorem ancestors_eq_above (hT : T.knowsParents = false) (p : Place N) :
    p.ancestors T = p.above := by
  induction p with
  | root n => exact ancestors_of_top (by simp [up?, hT])
  | within owner index? n ih =>
      rw [ancestors_of_up? (endsAbove_of_not_knowsParents hT _) rfl, ih, above]

/-! ## Below a place -/

/-- What is met on the way down, other than the place itself, is a child of something that is
met. -/
theorem exists_owner_of_mem_subtree {p q : Place N} (h : T.EndsBelow p.node)
    (hq : q ∈ p.subtree T) : q = p ∨ ∃ owner ∈ p.subtree T, q ∈ owner.childPlaces T := by
  obtain ⟨n, hn⟩ : ∃ n, n = p.node := ⟨_, rfl⟩
  rw [← hn] at h
  induction h generalizing p with
  | intro n hacc ih =>
      subst hn
      have hsub := subtree_eq (p := p) ⟨_, hacc⟩
      rw [hsub] at hq ⊢
      rcases List.mem_cons.mp hq with rfl | hq
      · exact .inl rfl
      · obtain ⟨child, hchild, hq⟩ := List.mem_flatMap.mp hq
        right
        rcases ih child.node (node_mem_of_mem_childPlaces hchild) hq rfl with rfl | ⟨o, ho, hqo⟩
        · exact ⟨p, List.mem_cons_self, hchild⟩
        · exact ⟨o, List.mem_cons_of_mem p (List.mem_flatMap.mpr ⟨child, hchild, ho⟩), hqo⟩

/-- A child stands at its index among the children. -/
theorem exists_index_of_mem_childPlaces {owner p : Place N} (h : p ∈ owner.childPlaces T) :
    ∃ i n, p = owner.child i n ∧ (owner.childPlaces T)[i]? = some p := by
  obtain ⟨i, hi, rfl⟩ := List.mem_mapIdx.mp h
  refine ⟨i, _, rfl, ?_⟩
  simp [childPlaces, hi]

/-- Below an owner are the siblings before a child with what is below them, the child with what is
below it, and the siblings behind. -/
theorem descendants_eq_append {owner : Place N} {i : Nat} {n : N}
    (h : (owner.childPlaces T)[i]? = some (owner.child i n)) :
    owner.descendants T = (owner.child i n).earlierSubtrees T
      ++ ((owner.child i n).subtree T ++ (owner.child i n).laterSubtrees T) := by
  obtain ⟨hi, hchild⟩ := List.getElem?_eq_some_iff.mp h
  have hsplit : owner.childPlaces T = (owner.childPlaces T).take i
      ++ owner.child i n :: (owner.childPlaces T).drop (i + 1) := by
    rw [← hchild, List.getElem_cons_drop, List.take_append_drop]
  rw [descendants, hsplit, List.flatMap_append, List.flatMap_cons]
  rfl

/-- On the way to a place no two places are equally far from the start. -/
theorem eq_of_mem_cons_above {p a b : Place N} (ha : a ∈ p :: p.above) (hb : b ∈ p :: p.above)
    (h : a.above.length = b.above.length) : a = b := by
  induction p with
  | root n =>
      simp only [above, List.mem_singleton] at ha hb
      rw [ha, hb]
  | within owner index? n ih =>
      have hlt : ∀ c ∈ owner :: owner.above,
          c.above.length < (within owner index? n).above.length :=
        fun c hc => length_above_lt_of_mem hc
      rcases List.mem_cons.mp ha with rfl | ha'
      · rcases List.mem_cons.mp hb with rfl | hb'
        · rfl
        · have := hlt b hb'
          omega
      · rcases List.mem_cons.mp hb with rfl | hb'
        · have := hlt a ha'
          omega
        · exact ih ha' hb'

theorem above_of_mem_childPlaces {p q : Place N} (h : q ∈ p.childPlaces T) :
    q.above = p :: p.above := by
  obtain ⟨i, n, rfl, -⟩ := exists_index_of_mem_childPlaces h
  rfl

/-- A walk down from a place goes on below it: the place lies on the way to all that is met. -/
theorem mem_cons_above_of_mem_subtree {p q : Place N} (h : T.EndsBelow p.node)
    (hq : q ∈ p.subtree T) : p ∈ q :: q.above := by
  induction q with
  | root n =>
      rcases exists_owner_of_mem_subtree h hq with rfl | ⟨owner, -, hchild⟩
      · exact List.mem_cons_self
      · have habove := above_of_mem_childPlaces hchild
        cases habove
  | within owner index? n ih =>
      rcases exists_owner_of_mem_subtree h hq with rfl | ⟨owner', howner, hchild⟩
      · exact List.mem_cons_self
      · have habove : owner :: owner.above = owner' :: owner'.above :=
          above_of_mem_childPlaces hchild
        obtain ⟨rfl, -⟩ := List.cons.inj habove
        exact List.mem_cons_of_mem _ (ih howner)

theorem nodup_childPlaces (p : Place N) : (p.childPlaces T).Nodup := by
  rw [childPlaces, List.Nodup, List.pairwise_iff_getElem]
  intro i j hi hj hlt heq
  simp only [List.getElem_mapIdx, child, within.injEq, Option.some.injEq] at heq
  omega

/-- No place is met twice on a walk down. -/
theorem nodup_subtree {p : Place N} (h : T.EndsBelow p.node) : (p.subtree T).Nodup := by
  obtain ⟨n, hn⟩ : ∃ n, n = p.node := ⟨_, rfl⟩
  rw [← hn] at h
  induction h generalizing p with
  | intro n hacc ih =>
      subst hn
      have hchild : ∀ c ∈ p.childPlaces T, T.EndsBelow c.node :=
        fun c hc => hacc _ (node_mem_of_mem_childPlaces hc)
      rw [subtree_eq ⟨_, hacc⟩, List.nodup_cons]
      constructor
      · intro hp
        obtain ⟨c, hc, hpc⟩ := List.mem_flatMap.mp hp
        have hmem : c ∈ p :: p.above := mem_cons_above_of_mem_subtree (hchild c hc) hpc
        have hlength : c.above.length = p.above.length + 1 := by
          rw [above_of_mem_childPlaces hc, List.length_cons]
        rcases List.mem_cons.mp hmem with rfl | hmem
        · omega
        · have := length_above_lt_of_mem hmem
          omega
      · rw [descendants, List.nodup_flatMap]
        refine ⟨fun c hc => ih c.node (node_mem_of_mem_childPlaces hc) rfl, ?_⟩
        refine (nodup_childPlaces p).imp_of_mem ?_
        intro a b ha hb hne q hqa hqb
        have ha' := mem_cons_above_of_mem_subtree (hchild a ha) hqa
        have hb' := mem_cons_above_of_mem_subtree (hchild b hb) hqb
        refine hne (eq_of_mem_cons_above ha' hb' ?_)
        rw [above_of_mem_childPlaces ha, above_of_mem_childPlaces hb]

/-- Whether a place lies below another: it is one of its children, or lies below one of them. -/
def IsBelow (T : Tree N) (q p : Place N) : Prop :=
  Relation.TransGen (fun owner child => child ∈ owner.childPlaces T) p q

/-- A walk down from a place meets all that lies below it. -/
theorem mem_descendants_iff {p q : Place N} (h : T.EndsBelow p.node) :
    q ∈ p.descendants T ↔ q.IsBelow T p := by
  obtain ⟨n, hn⟩ : ∃ n, n = p.node := ⟨_, rfl⟩
  rw [← hn] at h
  induction h generalizing p with
  | intro n hacc ih =>
      subst hn
      rw [descendants, List.mem_flatMap, IsBelow, Relation.TransGen.head'_iff]
      refine exists_congr fun c => and_congr_right fun hc => ?_
      have hnode : c.node ∈ T.children p.node := node_mem_of_mem_childPlaces hc
      rw [subtree_eq (hacc _ hnode), List.mem_cons, Relation.reflTransGen_iff_eq_or_transGen]
      exact or_congr_right (ih c.node hnode rfl)

open scoped List in
/-- The children of all that is met on a walk down are what lies below its start, in an order of
their own. -/
theorem flatMap_childPlaces_perm {p : Place N} (h : T.EndsBelow p.node) :
    ((p.subtree T).flatMap (childPlaces T)).Perm (p.descendants T) := by
  obtain ⟨n, hn⟩ : ∃ n, n = p.node := ⟨_, rfl⟩
  rw [← hn] at h
  induction h generalizing p with
  | intro n hacc ih =>
      subst hn
      have hbelow : ∀ c ∈ p.childPlaces T,
          ((c.subtree T).flatMap (childPlaces T)).Perm (c.descendants T) :=
        fun c hc => ih c.node (node_mem_of_mem_childPlaces hc) rfl
      have hsubtree : ∀ c ∈ p.childPlaces T, c.subtree T = [c] ++ c.descendants T :=
        fun c hc => subtree_eq (hacc _ (node_mem_of_mem_childPlaces hc))
      calc (p.subtree T).flatMap (childPlaces T)
          ~ p.childPlaces T ++ (p.childPlaces T).flatMap fun c =>
              (c.subtree T).flatMap (childPlaces T) := by
            rw [subtree_eq ⟨_, hacc⟩, List.flatMap_cons, descendants, List.flatMap_assoc]
        _ ~ (p.childPlaces T).flatMap (fun c => [c])
              ++ (p.childPlaces T).flatMap (descendants T) := by
            rw [List.flatMap_singleton']
            exact (List.Perm.flatMap_left _ hbelow).append_left _
        _ ~ (p.childPlaces T).flatMap fun c => [c] ++ c.descendants T :=
            List.flatMap_append_perm _ _ _
        _ = p.descendants T := by
            rw [descendants, List.flatMap_congr hsubtree]

end Place

namespace Document

/-! ## The values of a document -/

mutual

/-- The places below a value that stands at a place, in pre-order. -/
def placesBelow (p : Place Node) : Value → List (Place Node)
  | .object ms => placesOfMembers p 0 ms
  | .array vs => placesOfElements p 0 vs
  | _ => []

/-- The places of the members of an object from an index on, each with the places below it. -/
def placesOfMembers (p : Place Node) (i : Nat) : List (String × Value) → List (Place Node)
  | [] => []
  | (key, v) :: rest =>
    let q := p.child i (.value (some key) v)
    q :: (placesBelow q v ++ placesOfMembers p (i + 1) rest)

/-- The places of the elements of an array from an index on, each with the places below it. -/
def placesOfElements (p : Place Node) (i : Nat) : List Value → List (Place Node)
  | [] => []
  | v :: rest =>
    let q := p.child i (.value none v)
    q :: (placesBelow q v ++ placesOfElements p (i + 1) rest)

end

/-- The places of all values of a document in pre-order. -/
def places (v : Value) : List (Place Node) :=
  .root (.root v) :: placesBelow (.root (.root v)) v

mutual

/-- A walk down from a place meets the place and the places below it. -/
theorem subtree_eq_cons_placesBelow {p : Place Node} {key? : Option String} {v : Value}
    (h : p.node = .value key? v) : p.subtree Node.tree = p :: placesBelow p v := by
  have hchildren : p.childPlaces Node.tree
      = (Node.childrenOf v).mapIdx fun i n => p.child (0 + i) n := by
    simp only [Place.childPlaces, h, Nat.zero_add]
    rfl
  rw [Place.subtree_eq (Node.endsBelow p.node), Place.descendants, hchildren]
  congr 1
  cases v with
  | object ms => exact flatMap_subtree_members p 0 ms
  | array vs => exact flatMap_subtree_elements p 0 vs
  | string | number | bool | null => rfl

theorem flatMap_subtree_members (p : Place Node) (i : Nat) (ms : List (String × Value)) :
    ((ms.map fun (key, v) => Node.value (some key) v).mapIdx fun j n => p.child (i + j) n).flatMap
      (Place.subtree Node.tree) = placesOfMembers p i ms := by
  cases ms with
  | nil => rfl
  | cons m rest =>
      obtain ⟨key, v⟩ := m
      have hrest := flatMap_subtree_members p (i + 1) rest
      simp only [List.map_cons, List.mapIdx_cons, List.flatMap_cons, Nat.add_zero, placesOfMembers,
        ← hrest, subtree_eq_cons_placesBelow (p := p.child i (.value (some key) v)) rfl,
        List.cons_append]
      simp only [Nat.add_assoc, Nat.add_comm 1]

theorem flatMap_subtree_elements (p : Place Node) (i : Nat) (vs : List Value) :
    ((vs.map (Node.value none)).mapIdx fun j n => p.child (i + j) n).flatMap
      (Place.subtree Node.tree) = placesOfElements p i vs := by
  cases vs with
  | nil => rfl
  | cons v rest =>
      have hrest := flatMap_subtree_elements p (i + 1) rest
      simp only [List.map_cons, List.mapIdx_cons, List.flatMap_cons, Nat.add_zero, placesOfElements,
        ← hrest, subtree_eq_cons_placesBelow (p := p.child i (.value none v)) rfl,
        List.cons_append]
      simp only [Nat.add_assoc, Nat.add_comm 1]

end

/-- A walk down from the root meets the values of the document. -/
theorem subtree_root (v : Value) : (Place.root (Node.root v)).subtree Node.tree = places v :=
  subtree_eq_cons_placesBelow rfl

theorem descendants_root (v : Value) :
    (Place.root (Node.root v)).descendants Node.tree = placesBelow (.root (.root v)) v := by
  have hsubtree := subtree_root v
  rw [Place.subtree_eq (Node.endsBelow _), places] at hsubtree
  exact (List.cons.inj hsubtree).2

/-! ## Numbers -/

theorem countAll_append (as bs : List Node) :
    Node.countAll (as ++ bs) = Node.countAll as + Node.countAll bs := by
  induction as with
  | nil => simp [Node.countAll]
  | cons a as ih => simp only [List.cons_append, Node.countAll, ih, Nat.add_assoc]

theorem count_pos (v : Value) : 0 < v.count := by
  cases v <;> simp [Value.count]

/-- A child's number is one behind its owner's and those of everything in front of it. -/
theorem number?_child {p : Place Node} {m : Nat} (hm : p.number? = some m) (i : Nat) (n : Node) :
    (p.child i n).number? = some (m + 1 + Node.countAll (p.node.children.take i)) := by
  simp [Place.child, Place.number?, hm]

/-- The children up to the next one count its values on top of those of the others. -/
theorem countAll_take_add_one {l rest : List Node} {i : Nat} {key? : Option String} {v : Value}
    (h : l.drop i = .value key? v :: rest) :
    Node.countAll (l.take (i + 1)) = Node.countAll (l.take i) + v.count := by
  have hn : l[i]? = some (.value key? v) := by
    rw [← Nat.add_zero i, ← List.getElem?_drop, h, List.getElem?_cons_zero]
  rw [List.take_add_one, hn, countAll_append]
  rfl

/-- Numbers without a gap: of a value, of those below it, and of what comes behind. -/
theorem number?_cons_append {q : Place Node} {v : Value} {start behind : Nat}
    {ps qs : List (Place Node)} (hq : q.number? = some start)
    (hps : ps.map Place.number? = (List.range' (start + 1) (v.count - 1)).map some)
    (hqs : qs.map Place.number? = (List.range' (start + v.count) behind).map some) :
    (q :: (ps ++ qs)).map Place.number? = (List.range' start (v.count + behind)).map some := by
  obtain ⟨below, hbelow⟩ := Nat.exists_eq_add_one.mpr (count_pos v)
  rw [hbelow, Nat.add_sub_cancel] at hps
  rw [hbelow, ← Nat.add_assoc, Nat.add_right_comm] at hqs
  rw [List.map_cons, List.map_append, hq, hps, hqs, hbelow, Nat.add_right_comm below 1 behind,
    List.range'_succ, ← List.range'_append_1, List.map_cons, List.map_append]

mutual

/-- The places below one are numbered behind it without a gap. -/
theorem number?_placesBelow {p : Place Node} {key? : Option String} {v : Value} {m : Nat}
    (h : p.node = .value key? v) (hm : p.number? = some m) :
    (placesBelow p v).map Place.number? = (List.range' (m + 1) (v.count - 1)).map some := by
  have hchildren : p.node.children.drop 0 = Node.childrenOf v := by
    rw [h]
    rfl
  cases v with
  | object ms => exact number?_placesOfMembers hm hchildren
  | array vs => exact number?_placesOfElements hm hchildren
  | string | number | bool | null => rfl

theorem number?_placesOfMembers {p : Place Node} {i : Nat} {ms : List (String × Value)} {m : Nat}
    (hm : p.number? = some m)
    (h : p.node.children.drop i = ms.map fun (key, v) => .value (some key) v) :
    (placesOfMembers p i ms).map Place.number?
      = (List.range' (m + 1 + Node.countAll (p.node.children.take i))
          (Value.countMembers ms)).map some := by
  cases ms with
  | nil => rfl
  | cons member rest =>
      obtain ⟨key, v⟩ := member
      have hq := number?_child hm i (.value (some key) v)
      have hbelow := number?_placesBelow (p := p.child i (.value (some key) v)) rfl hq
      have hrest : p.node.children.drop (i + 1) = rest.map fun (key, v) => .value (some key) v := by
        rw [← List.drop_drop, h]
        rfl
      have hbehind := number?_placesOfMembers hm hrest
      rw [countAll_take_add_one h, ← Nat.add_assoc] at hbehind
      exact number?_cons_append hq hbelow hbehind

theorem number?_placesOfElements {p : Place Node} {i : Nat} {vs : List Value} {m : Nat}
    (hm : p.number? = some m) (h : p.node.children.drop i = vs.map (.value none)) :
    (placesOfElements p i vs).map Place.number?
      = (List.range' (m + 1 + Node.countAll (p.node.children.take i))
          (Value.countElements vs)).map some := by
  cases vs with
  | nil => rfl
  | cons v rest =>
      have hq := number?_child hm i (.value none v)
      have hbelow := number?_placesBelow (p := p.child i (.value none v)) rfl hq
      have hrest : p.node.children.drop (i + 1) = rest.map (.value none) := by
        rw [← List.drop_drop, h]
        rfl
      have hbehind := number?_placesOfElements hm hrest
      rw [countAll_take_add_one h, ← Nat.add_assoc] at hbehind
      exact number?_cons_append hq hbelow hbehind

end

/-- The values of a document are numbered in order, the root being zero. -/
theorem number?_places (v : Value) :
    (places v).map Place.number? = (List.range v.count).map some := by
  have hbelow := number?_placesBelow (p := .root (.root v)) (m := 0) rfl rfl
  rw [places, List.map_cons, hbelow, List.range_eq_range', ← Nat.succ_pred_eq_of_pos (count_pos v)]
  rfl

/-- No value of a document is listed twice. -/
theorem nodup_places (v : Value) : (places v).Nodup := by
  rw [← subtree_root]
  exact Place.nodup_subtree (Node.endsBelow _)

/-! ## What a place is among the others -/

/-- A value of a document is its root or a child of another of its values. -/
theorem root_or_child_of_mem_places {v : Value} {x : Place Node} (hx : x ∈ places v) :
    x = .root (.root v) ∨ ∃ owner ∈ places v, ∃ i n, x = owner.child i n
      ∧ (owner.childPlaces Node.tree)[i]? = some (owner.child i n) := by
  rw [← subtree_root] at hx ⊢
  rcases Place.exists_owner_of_mem_subtree (Node.endsBelow _) hx with rfl | ⟨owner, howner, hchild⟩
  · exact .inl rfl
  · obtain ⟨i, n, rfl, hi⟩ := Place.exists_index_of_mem_childPlaces hchild
    exact .inr ⟨owner, howner, i, n, rfl, hi⟩

/-- What holds of the root, and of every child whose owner it holds of, holds of all values of a
document. -/
@[elab_as_elim]
theorem places_induction {v : Value} {motive : Place Node → Prop}
    (root : motive (.root (.root v)))
    (child : ∀ (owner : Place Node) (i : Nat) (n : Node), owner ∈ places v →
      (owner.childPlaces Node.tree)[i]? = some (owner.child i n) → motive owner →
      motive (owner.child i n))
    {x : Place Node} (hx : x ∈ places v) : motive x := by
  induction x with
  | root n =>
      rcases root_or_child_of_mem_places hx with hroot | ⟨o, -, i, m, hplace, -⟩
      · rw [hroot]
        exact root
      · cases hplace
  | within owner index? n ih =>
      rcases root_or_child_of_mem_places hx with hroot | ⟨o, howner, i, m, hplace, hi⟩
      · cases hroot
      · cases hplace
        exact child owner i n howner hi (ih howner)

/-- The places on the way to a value are values of the document. -/
theorem mem_places_of_mem_above {v : Value} {x : Place Node} (hx : x ∈ places v) :
    ∀ p ∈ x.above, p ∈ places v := by
  refine places_induction (fun p h => nomatch h) (fun owner i n howner _ ih p h => ?_) hx
  rcases List.mem_cons.mp h with rfl | h
  · exact howner
  · exact ih p h

theorem append_root_eq_places (v : Value) :
    (Place.root (.root v)).predecessors Node.tree ++ (Place.root (.root v)).subtree Node.tree
      ++ (Place.root (.root v)).followers Node.tree = places v := by
  rw [Place.predecessors_of_top rfl, Place.followers_of_top rfl, subtree_root]
  exact List.append_nil _

/-- What surrounds a child is what surrounds its owner, without the owner itself. -/
theorem append_child_eq {owner : Place Node} {i : Nat} {n : Node}
    (h : (owner.childPlaces Node.tree)[i]? = some (owner.child i n)) :
    (owner.child i n).predecessors Node.tree ++ (owner.child i n).subtree Node.tree
      ++ (owner.child i n).followers Node.tree
      = owner.predecessors Node.tree ++ owner.descendants Node.tree
        ++ owner.followers Node.tree := by
  have hends := Place.endsAbove_of_not_knowsParents (T := Node.tree) rfl (owner.child i n)
  rw [Place.predecessors_of_up? hends rfl, Place.followers_of_up? hends rfl,
    Place.descendants_eq_append h]
  simp only [List.append_assoc]

open Classical in
/-- Taking an element out of a list that has it once leaves what stands around it. -/
theorem filter_ne_append_cons {α : Type} {as bs : List α} {a : α} (h : (as ++ a :: bs).Nodup) :
    (as ++ a :: bs).filter (· ≠ a) = as ++ bs := by
  obtain ⟨has, hbs, hdisjoint⟩ := List.nodup_append.mp h
  have ha : ∀ b ∈ as, b ≠ a := fun b hb => hdisjoint b hb a List.mem_cons_self
  have hb : ∀ b ∈ bs, b ≠ a := fun b hb hba => (List.nodup_cons.mp hbs).1 (hba ▸ hb)
  rw [List.filter_append, List.filter_cons_of_neg (by simp),
    List.filter_eq_self.mpr fun b h => by simpa using ha b h,
    List.filter_eq_self.mpr fun b h => by simpa using hb b h]

open Classical in
/-- **Document order around a place**: what precedes it, it with everything below it, and what
follows it are the values of the document but for those above it. -/
theorem append_eq_filter {v : Value} {x : Place Node} (hx : x ∈ places v) :
    x.predecessors Node.tree ++ x.subtree Node.tree ++ x.followers Node.tree
      = (places v).filter (· ∉ x.above) := by
  refine places_induction ?_ (fun owner i n _ hi ih => ?_) hx
  · rw [append_root_eq_places]
    exact (List.filter_eq_self.mpr fun p _ => by simp [Place.above]).symm
  · rw [Place.subtree_eq (Node.endsBelow _), List.append_assoc, List.cons_append] at ih
    have hnodup := (nodup_places v).filter fun p => decide (p ∉ owner.above)
    rw [← ih] at hnodup
    -- below the owner, only the owner is above in addition
    have hfilter : (places v).filter (· ∉ (owner.child i n).above)
        = ((places v).filter (· ∉ owner.above)).filter (· ≠ owner) := by
      rw [List.filter_filter]
      exact List.filter_congr fun p _ => by simp [Place.child, Place.above]
    rw [hfilter, ← ih, filter_ne_append_cons hnodup, append_child_eq hi, List.append_assoc]

open Classical in
/-- With the values above it, the values around a place are all of the document. -/
theorem append_above_perm {v : Value} {x : Place Node} (hx : x ∈ places v) :
    ((places v).filter (· ∉ x.above) ++ x.above).Perm (places v) := by
  have habove : ((places v).filter (· ∈ x.above)).Perm x.above := by
    refine (List.perm_ext_iff_of_nodup ((nodup_places v).filter _) x.nodup_above).mpr fun p => ?_
    simp only [List.mem_filter, decide_eq_true_eq, and_iff_right_iff_imp]
    exact mem_places_of_mem_above hx p
  refine (habove.symm.append_left _).trans ?_
  have hsplit := List.filter_append_perm (fun p => decide (p ∉ x.above)) (places v)
  simpa only [decide_not, Bool.not_not] using hsplit

end Document

end JsonAxes
