import JsonAxes.Proofs.Query.Lockstep
import JsonAxes.Proofs.Tree.Grounded

/-!
# Which parents a query asks for

The way up from a place leads back along the route on which it was reached, and only from its
topmost node (`Place.top`) to the parent that the tree knows. Whatever the links of the tree, that
node is the start or stands on the chain of parents above it (`Tree.Reaches.onChain_top`). So a
query is blind to all that a tree says of the parents of other nodes
(`Query.sameOutcome_of_onChain`), and if nodes do not know their parents, to all of it.
-/

set_option autoImplicit false

namespace JsonAxes

universe u

variable {N : Type u}

/-- The node at which the way up along the route of a place ends. -/
def Place.top : Place N → N
  | root n => n
  | within owner _ _ => owner.top

namespace Tree

variable {T T' : Tree N} {start : N}

/-- Whether a node is a start or stands on the chain of parents above it. -/
def OnChain (T : Tree N) (start n : N) : Prop :=
  Relation.ReflTransGen (fun m above => T.parent? m = some above) start n

/-- Above a node without a parent the chain has nothing more. -/
theorem OnChain.eq_of_parent?_eq_none {n : N} (h : T.OnChain start n)
    (hstart : T.parent? start = none) : n = start := by
  rcases h.cases_head with heq | ⟨above, habove, -⟩
  · exact heq.symm
  · rw [hstart] at habove
    cases habove

/-- Whatever is reached, its route begins on the chain of parents above the start. -/
theorem Reaches.onChain_top {p : Place N} (hp : T.Reaches start p) : T.OnChain start p.top := by
  induction hp with
  | start => exact .refl
  | @up p above _ habove ih =>
      cases p with
      | root n =>
          obtain ⟨-, hparent, hroot⟩ := up?_root_eq_some_iff.mp habove
          rw [hroot]
          exact ih.tail hparent
      | within owner index? n =>
          cases habove
          exact ih
  | child _ _ ih => exact ih
  | attr _ _ ih => exact ih

/-- Trees that agree on the parents along the chain above a start agree on the way up from all that
is reached. -/
theorem Reaches.up?_congr
    (h : ∀ n, T.OnChain start n → (Place.root n).up? T' = (Place.root n).up? T) {p : Place N}
    (hp : T.Reaches start p) : p.up? T' = p.up? T := by
  have htop := hp.onChain_top
  cases p with
  | root n => exact h n htop
  | within owner index? n => rfl

end Tree

namespace NodeTable

/-- A table with other parents, which its nodes may know or not. -/
def withParents (t : NodeTable) (knowsParents : Bool) (parent? : Nat → Option Nat) : NodeTable :=
  { t with
    rows := t.rows.mapIdx fun n row => { row with parent? := parent? n }
    knowsParents }

/-- Giving a table other parents changes nothing else about it. -/
theorem agreesBelow_withParents (t : NodeTable) (knowsParents : Bool)
    (parent? : Nat → Option Nat) :
    t.tree.AgreesBelow (t.withParents knowsParents parent?).tree := by
  have hrow : ∀ n, ((t.withParents knowsParents parent?).row n).tag = (t.row n).tag
      ∧ ((t.withParents knowsParents parent?).row n).children = (t.row n).children
      ∧ ((t.withParents knowsParents parent?).row n).attributes = (t.row n).attributes := by
    intro n
    simp only [row, withParents, Array.getElem?_mapIdx]
    cases t.rows[n]? with
    | none => exact ⟨rfl, rfl, rfl⟩
    | some row => exact ⟨rfl, rfl, rfl⟩
  have hentries : (t.withParents knowsParents parent?).entries = t.entries := by
    funext n
    simp only [entries, (hrow n).2.2]
    rfl
  constructor
  · exact funext fun n => (hrow n).1
  · exact funext fun n => (hrow n).2.1
  · rfl
  · funext n name
    simp only [tree, hentries]
  · funext n
    simp only [tree, hentries]

end NodeTable

namespace Query

variable {T T' : Tree N} {path : Path} {start : N}

/-- A query is blind to the parents of nodes that are not on the chain above its start. -/
theorem sameOutcome_of_onChain (hpath : path.Made) (hT : T.AgreesBelow T')
    (h : ∀ n, T.OnChain start n → (Place.root n).up? T' = (Place.root n).up? T)
    (limit? : Option Nat) :
    (Query.start T path start limit?).SameOutcome (Query.start T' path start limit?) :=
  sameOutcome_of_lockstep ⟨hT, fun _ hp => hp.up?_congr h, hpath.serves, hpath.serves⟩ rfl limit?

/-- **Parents are asked for only above the start.** Take two trees that differ in nothing but what
they say of parents; their links may be shared or form cycles. If nodes do not know their parents,
a query finds the same in both, ends in the same way and takes as many expansions for it, under
every limit. If they know them, this holds as soon as the trees agree on the parents of the start
and of the nodes on the chain of parents above it. And if the start has no parent, the outcome is
the one that there is where nodes do not know their parents. -/
theorem sameOutcome_of_parents (hpath : path.Made) (hT : T.AgreesBelow T') (start : N)
    (limit? : Option Nat) :
    (T.knowsParents = false → T'.knowsParents = false →
      (Query.start T path start limit?).SameOutcome (Query.start T' path start limit?))
    ∧ (T.knowsParents = true → T'.knowsParents = true →
      (∀ n, T.OnChain start n → T'.parent? n = T.parent? n) →
      (Query.start T path start limit?).SameOutcome (Query.start T' path start limit?))
    ∧ (T.knowsParents = true → T.parent? start = none → T'.knowsParents = false →
      (Query.start T path start limit?).SameOutcome (Query.start T' path start limit?)) := by
  refine ⟨fun hknows hknows' => ?_, fun hknows hknows' hparent => ?_,
    fun hknows hstart hknows' => ?_⟩
  · refine sameOutcome_of_onChain hpath hT (fun n _ => ?_) limit?
    simp [Place.up?, hknows, hknows']
  · refine sameOutcome_of_onChain hpath hT (fun n hn => ?_) limit?
    simp [Place.up?, hknows, hknows', hparent n hn]
  · refine sameOutcome_of_onChain hpath hT (fun n hn => ?_) limit?
    rw [hn.eq_of_parent?_eq_none hstart]
    simp [Place.up?, hknows', hstart]

/-- A table with a cycle of children, and with a cycle of parents between its last two nodes. -/
def looped : NodeTable where
  rows := #[⟨"r", none, [1, 2], []⟩, ⟨"a", some 2, [0, 2], []⟩, ⟨"b", some 1, [], []⟩]
  knowsParents := true
  hasAttributes := false
  hasLinks := true

/-- What the table says of the parent of its first node matters to no query from the last, although
the parents above that one go on forever; and all of its parents are as good as unknown to a query
from the first. -/
theorem sameOutcome_of_parents_looped :
    let path := (Path.empty.step .ancestor "a").step .following "*"
    let other := looped.withParents true fun n => if n = 0 then some 1 else looped.tree.parent? n
    let unknown := looped.withParents false fun _ => some 0
    (path.Made ∧ looped.tree.AgreesBelow other.tree ∧ looped.tree.AgreesBelow unknown.tree
      ∧ (looped.tree.knowsParents = true ∧ other.tree.knowsParents = true
        ∧ unknown.tree.knowsParents = false)
      ∧ (∀ n, looped.tree.OnChain 2 n → other.tree.parent? n = looped.tree.parent? n)
      ∧ looped.tree.parent? 0 = none)
    ∧ (Query.start looped.tree path 2 (some 9)).SameOutcome (Query.start other.tree path 2 (some 9))
    ∧ (Query.start looped.tree path 0 none).SameOutcome (Query.start unknown.tree path 0 none) := by
  intro path other unknown
  have hmade : path.Made := (Path.Made.empty.step .ancestor "a").step .following "*"
  have hother : looped.tree.AgreesBelow other.tree := looped.agreesBelow_withParents _ _
  have hunknown : looped.tree.AgreesBelow unknown.tree := looped.agreesBelow_withParents _ _
  have hparents : ∀ n, looped.tree.OnChain 2 n → other.tree.parent? n = looped.tree.parent? n := by
    intro n hn
    have hlast : n = 1 ∨ n = 2 := by
      induction hn with
      | refl => exact .inr rfl
      | tail _ hstep ih =>
          rcases ih with rfl | rfl
          · exact .inr (Option.some.inj hstep).symm
          · exact .inl (Option.some.inj hstep).symm
    rcases hlast with rfl | rfl
    · rfl
    · rfl
  refine ⟨⟨hmade, hother, hunknown, ⟨rfl, rfl, rfl⟩, hparents, rfl⟩, ?_, ?_⟩
  · exact (sameOutcome_of_parents hmade hother 2 (some 9)).2.1 rfl rfl hparents
  · exact (sameOutcome_of_parents hmade hunknown 0 none).2.2 rfl rfl rfl

end Query

end JsonAxes
