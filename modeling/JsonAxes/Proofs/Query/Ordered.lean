import JsonAxes.Proofs.Query.DocumentOrder
import JsonAxes.Proofs.Query.Limit

/-!
# Matches in document order

A path that goes down through the children level by level, and through all levels only in its last
step, finds its matches in document order and each of them once (`Document.finds_inOrder`). The
places that its steps lead to from a place are part of the walk down from there, in the same order
(`Path.evalSteps_sublist_subtree`): different children have different walks, one behind the other,
and tests and positions do no more than leave out places.
-/

set_option autoImplicit false

namespace JsonAxes

universe u

variable {N : Type u} {T : Tree N}

/-! ## A step leaves out places -/

theorem atPosition_sublist {α : Type u} (position? : Option Nat) (l : List α) :
    (atPosition position? l).Sublist l := by
  match position? with
  | none => exact .refl l
  | some 0 => exact List.nil_sublist l
  | some (n + 1) =>
      show (l[n]?.toList).Sublist l
      cases h : l[n]? with
      | none => exact List.nil_sublist l
      | some a => exact List.singleton_sublist.mpr (List.mem_of_getElem? h)

/-- A step leads to some of the places along its axis, in the order of the axis. -/
theorem Step.selected_sublist (T : Tree N) (names : NameTable) (s : Step) (p : Place N) :
    (s.selected T names p).Sublist (p.along T names s.test s.axis) :=
  (atPosition_sublist _ _).trans List.filter_sublist

/-! ## Steps that go down -/

/-- Whether steps stay where they are or go down to the children, the last of them perhaps through
all levels. -/
inductive Path.GoesDown : List Step → Prop where
  | nil : GoesDown []
  | through {s : Step} (h : s.axis = .descendant ∨ s.axis = .descendantOrSelf) : GoesDown [s]
  | cons {s : Step} {rest : List Step} (h : s.axis = .self ∨ s.axis = .child)
      (hrest : GoesDown rest) : GoesDown (s :: rest)

namespace Path

theorem GoesDown.ne_namespaces {steps : List Step} (h : GoesDown steps) :
    ∀ s ∈ steps, s.axis ≠ .namespaces := by
  induction h with
  | nil => exact List.forall_mem_nil _
  | through h =>
      refine List.forall_mem_singleton.mpr fun haxis => ?_
      simp [haxis] at h
  | cons h _ ih =>
      refine List.forall_mem_cons.mpr ⟨fun haxis => ?_, ih⟩
      simp [haxis] at h

open scoped List in
/-- Steps that go down lead to part of what the walk down meets, in the same order. -/
theorem evalSteps_sublist_subtree (names : NameTable) (hT : ∀ n, T.EndsBelow n)
    {steps : List Step} (h : GoesDown steps) (p : Place N) :
    (evalSteps T names steps p).Sublist (p.subtree T) := by
  have hbelow : ∀ p : Place N, (p.descendants T).Sublist (p.subtree T) := fun p => by
    rw [Place.subtree_eq (hT p.node)]
    exact List.sublist_cons_self p _
  induction h generalizing p with
  | nil =>
      rw [evalSteps, Place.subtree_eq (hT p.node)]
      exact List.singleton_sublist.mpr List.mem_cons_self
  | @through s h =>
      have hselected := Step.selected_sublist T names s p
      rw [evalSteps_singleton]
      rcases h with haxis | haxis
      · rw [haxis] at hselected
        exact hselected.trans (hbelow p)
      · rw [haxis] at hselected
        exact hselected
  | @cons s rest h _ ih =>
      have hselected := Step.selected_sublist T names s p
      rw [evalSteps]
      rcases h with haxis | haxis
      · rw [haxis] at hselected
        have hself := hselected.flatMap (evalSteps T names rest)
        rw [Place.along, List.flatMap_singleton] at hself
        exact hself.trans (ih p)
      · rw [haxis] at hselected
        -- each child has its part within its own walk, and the walks are those below the place
        calc (s.selected T names p).flatMap (evalSteps T names rest)
            <+ (p.childPlaces T).flatMap (evalSteps T names rest) := hselected.flatMap _
          _ <+ p.descendants T := List.Sublist.flatMap_right _ fun q _ => ih q
          _ <+ p.subtree T := hbelow p

end Path

/-! ## Queries of documents -/

namespace Document

/-- Whatever the limit, a search finds a front of what the query finds without one. -/
theorem matched_search_prefix {path : Path} {v : Value} {matched : List (Place Node)}
    (h : Finds path v matched) (limit? : Option Nat) :
    (search path v limit?).matched <+: matched := by
  obtain ⟨n, hn⟩ := h
  have hwithin : ∀ k, ((query path v none).within k).matched <+: matched := fun k => by
    have hlonger := Query.matched_within_prefix (query path v none) (Nat.le_max_right n k)
    rwa [Query.matched_within _ (max n k), hn _ (Nat.le_max_left n k)] at hlonger
  cases limit? with
  | none =>
      obtain ⟨k, hk⟩ := exists_search_eq_run path v none
      rw [hk, ← Query.matched_within]
      exact hwithin k
  | some limit =>
      rw [search_limited]
      exact hwithin limit

/-- **Paths that go down find their matches in document order.** Let the steps of a path be on the
self axis and the child axis, but for a last one that may be on the descendant axis or the
descendant-or-self axis, with whatever tests and positions. In every document the matches are
values of the document whose numbers in pre-order increase strictly, so that none is found twice;
with a limit, a front of them is found. -/
theorem finds_inOrder {path : Path} (h : Path.GoesDown path.steps) (v : Value) :
    ∃ (matched : List (Place Node)) (numbers : List Nat),
      Finds path v matched ∧ matched.Sublist (places v)
      ∧ matched.map Place.number? = numbers.map some ∧ numbers.Pairwise (· < ·)
      ∧ ∀ limit?, (search path v limit?).matched <+: matched := by
  have hfinds := finds_evalSteps path h.ne_namespaces v
  have hsublist := Path.evalSteps_sublist_subtree path.names Node.endsBelow h
    (.root (.root v))
  rw [subtree_root] at hsublist
  -- the values of the document are numbered without a gap, and the matches are some of them
  have hnumbers := hsublist.map Place.number?
  rw [number?_places, List.sublist_map_iff] at hnumbers
  obtain ⟨numbers, hrange, heq⟩ := hnumbers
  exact ⟨_, numbers, hfinds, hsublist, heq, List.pairwise_lt_range.sublist hrange,
    matched_search_prefix hfinds⟩

/-- `[[1, [2, 3], 4], \x7b"a": [5, [6]], "b": [7, [8]]\x7d]`. -/
def blocks : Value :=
  let row (m : Nat) (inner : List Value) : Value := .array [.number (.ofNat m), .array inner]
  .array [.array [.number (.ofNat 1), .array [.number (.ofNat 2), .number (.ofNat 3)],
      .number (.ofNat 4)],
    .object [("a", row 5 [.number (.ofNat 6)]), ("b", row 7 [.number (.ofNat 8)])]]

/-- What stands in the second place of each block, with all that is below it. -/
def secondOfEach : Path :=
  (((((Path.empty.step .child "*").step .self "node()").step .child "*").nth 2).step
    .descendantOrSelf "node()")

theorem finds_inOrder_secondOfEach :
    Path.GoesDown secondOfEach.steps
    ∧ ∃ matched : List (Place Node), Finds secondOfEach blocks matched
      ∧ matched.map Place.number? = [3, 4, 5, 12, 13, 14, 15].map some := by
  have hdown : Path.GoesDown secondOfEach.steps :=
    .cons (.inr rfl) (.cons (.inl rfl) (.cons (.inr rfl) (.through (.inr rfl))))
  obtain ⟨matched, numbers, hfinds, -⟩ := finds_inOrder hdown blocks
  refine ⟨hdown, matched, hfinds, ?_⟩
  obtain ⟨n, hn⟩ := hfinds
  have hended : ((query secondOfEach blocks none).run 60).ending ≠ .unfinished := by
    have hending : ((query secondOfEach blocks none).run 60).ending = .exhausted := rfl
    rw [hending]
    exact nofun
  have hrun := hn (max n 60) (Nat.le_max_left n 60)
  rw [Query.run_eq_of_le hended (Nat.le_max_right n 60)] at hrun
  rw [← show _ = matched from congrArg Answers.matched hrun]
  rfl

end Document

end JsonAxes
