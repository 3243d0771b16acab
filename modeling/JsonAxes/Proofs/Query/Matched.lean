import JsonAxes.Proofs.Number.Nearest
import JsonAxes.Proofs.Query.Reached
import JsonAxes.Proofs.Tree.Preorder
import JsonAxes.Proofs.Value.Read
import JsonAxes.Query.Select

/-!
# What is matched in a document

However a search ends, what it has matched is reached from its start (`Query.reaches_of_matched`). A
document whose nodes do not know their parents is reached from the top down, so that what holds of
its value holds of every value that is matched, and attributes are those of such values
(`Node.isOf_of_reaches`). So all matches in a document that was read are like the document
(`Document.isRead_of_matched`).
-/

set_option autoImplicit false

namespace JsonAxes

universe u

variable {N : Type u}

/-! ## Matches are reached -/

namespace Query

/-- Whether a query searches a tree along a path and holds nothing but what is really there. -/
structure IsReal (T : Tree N) (path : Path) (start : N) (q : Query N) : Prop where
  tree : q.tree = T
  names : q.names = path.names
  search : q.search.IsReal T path start

/-- Whether an expansion leaves such a query, and what it matches is reached. -/
def Progress.IsReal (T : Tree N) (path : Path) (start : N) : Progress N → Prop
  | .exhausted => True
  | .working q => q.IsReal T path start
  | .matched p q => T.Reaches start p ∧ q.IsReal T path start
  | .failed _ q => q.IsReal T path start

variable {T : Tree N} {path : Path} {start : N}

theorem IsReal.advance {q : Query N} (h : q.IsReal T path start) :
    q.advance.IsReal T path start := by
  obtain ⟨rfl, hnames, hsearch⟩ := h
  have hreal := hsearch.advance
  rw [← hnames] at hreal
  rw [Query.advance]
  split
  · trivial
  · split
    · exact ⟨rfl, hnames, Search.isReal_finished⟩
    · cases hadvance : q.search.advance q.tree q.names with
      | exhausted => trivial
      | moved s =>
          rw [hadvance] at hreal
          exact ⟨rfl, hnames, hreal⟩
      | matched p s =>
          rw [hadvance] at hreal
          exact ⟨hreal.1, rfl, hnames, hreal.2⟩
      | failed axis => exact ⟨rfl, hnames, Search.isReal_finished⟩

theorem IsReal.reaches {q : Query N} (h : q.IsReal T path start) (n : Nat) :
    ∀ p ∈ (q.run n).matched, T.Reaches start p := by
  induction n generalizing q with
  | zero => exact List.forall_mem_nil _
  | succ n ih =>
      have hadvance := h.advance
      rw [run]
      cases hprogress : q.advance with
      | exhausted => exact List.forall_mem_nil _
      | working q' =>
          rw [hprogress] at hadvance
          exact ih hadvance
      | matched p q' =>
          rw [hprogress] at hadvance
          exact List.forall_mem_cons.mpr ⟨hadvance.1, ih hadvance.2⟩
      | failed e q' => exact List.forall_mem_nil _

/-- However a query ends, all that it has matched is reached from its start. -/
theorem reaches_of_matched (T : Tree N) (path : Path) (start : N) (limit? : Option Nat) (n : Nat) :
    ∀ p ∈ ((Query.start T path start limit?).run n).matched, T.Reaches start p :=
  IsReal.reaches ⟨rfl, rfl, Search.isReal_start path start⟩ n

end Query

/-! ## From the top down -/

/-- Where nodes do not know their parents, what a start has and its children and attributes inherit
is had by every node that is reached. -/
theorem Tree.Reaches.inherits {T : Tree N} (hT : T.knowsParents = false) {start : N}
    {P : N → Prop} (hstart : P start) (hchild : ∀ n, P n → ∀ c ∈ T.children n, P c)
    (hattr : ∀ n name a, P n → T.attribute? n name = some a → P a) {p : Place N}
    (hp : T.Reaches start p) : P p.node := by
  -- the way back up leads to places that were reached before
  suffices hall : ∀ q ∈ p :: p.above, P q.node from hall p List.mem_cons_self
  induction hp with
  | start => exact List.forall_mem_singleton.mpr hstart
  | @up p above hp hup ih =>
      cases p with
      | root n => simp [Place.up?, hT] at hup
      | within owner index? n =>
          cases hup
          exact (List.forall_mem_cons.mp ih).2
  | @child p i n hp hn ih =>
      have howner := (List.forall_mem_cons.mp ih).1
      exact List.forall_mem_cons.mpr ⟨hchild _ howner n (List.mem_of_getElem? hn), ih⟩
  | @attr p name n hp hn ih =>
      have howner := (List.forall_mem_cons.mp ih).1
      exact List.forall_mem_cons.mpr ⟨hattr _ name n howner hn, ih⟩

namespace Node

/-- Whether a node has a value with a property, or is an attribute of one. -/
def IsOf (P : Value → Prop) : Node → Prop
  | value _ v => P v
  | attr (.size n) => ∃ v, P v ∧ v.size? = some n
  | attr (.empty _) => True

variable {limit size : Nat}

theorem isOf_of_mem_children {n : Node} (hn : n.IsOf (Value.IsRead limit size)) :
    ∀ c ∈ n.children, c.IsOf (Value.IsRead limit size) := by
  cases n with
  | attr a => exact List.forall_mem_nil _
  | value key? v =>
      cases v with
      | object ms => exact List.forall_mem_map.mpr fun m hm => hn.of_mem_members hm
      | array vs => exact List.forall_mem_map.mpr fun w hw => hn.of_mem_elements hw
      | _ => exact List.forall_mem_nil _

theorem isOf_of_attribute? {P : Value → Prop} {n a : Node} {name : String} (hn : n.IsOf P)
    (h : n.attribute? name = some a) : a.IsOf P := by
  cases n with
  | attr b => cases h
  | value key? v =>
      cases hsize : v.size? with
      | none => simp [attribute?, value?, hsize] at h
      | some k =>
          simp only [attribute?, value?, hsize, Option.bind_eq_bind, Option.bind_some] at h
          split at h
          · cases h
            exact ⟨v, hn, hsize⟩
          · split at h
            · cases h
              trivial
            · cases h

/-- What holds of a document that was read holds of all values that are reached in it. -/
theorem isOf_of_reaches {v : Value} (hv : v.IsRead limit size) {p : Place Node}
    (hp : tree.Reaches (root v) p) : p.node.IsOf (Value.IsRead limit size) := by
  have hroot : (root v).IsOf (Value.IsRead limit size) := hv
  exact hp.inherits rfl hroot (fun _ => isOf_of_mem_children) fun _ _ _ => isOf_of_attribute?

/-- Sizes of containers are finite numbers, if there are not too many values. -/
theorem isRead_toValue {n : Node} (hn : n.IsOf (Value.IsRead limit size)) {k : Nat}
    (hsize : size < 2 ^ k) (hk : k ≤ 1023) (hpos : 0 < size) : n.toValue.IsRead limit size := by
  match n with
  | value _ v => exact hn
  | attr (.size m) =>
      obtain ⟨v, hv, hm⟩ := hn
      have hlt : m < 2 ^ k :=
        Nat.lt_trans (Nat.lt_of_lt_of_le (Value.lt_count_of_size? hm) hv.count_le) hsize
      exact ⟨rfl, Number.isFinite_ofNat hlt hk, Nat.zero_le _, hpos⟩
  | attr (.empty b) => exact ⟨rfl, trivial, Nat.zero_le _, hpos⟩

end Node

/-- The matches in a document that was read are like the document, however the search ends. -/
theorem Document.isRead_of_matched {path : Path} {v : Value} {limit? : Option Nat}
    {limit size k : Nat} (hv : v.IsRead limit size) (hsize : size < 2 ^ k) (hk : k ≤ 1023) :
    ∀ p ∈ (search path v limit?).matched, p.node.toValue.IsRead limit size := by
  intro p hp
  obtain ⟨n, hn⟩ := exists_search_eq_run path v limit?
  rw [hn] at hp
  have hreaches := Query.reaches_of_matched Node.tree path (Node.root v) limit? n p hp
  have hpos : 0 < size := Nat.lt_of_lt_of_le (count_pos v) hv.count_le
  exact Node.isRead_toValue (Node.isOf_of_reaches hv hreaches) hsize hk hpos

end JsonAxes
