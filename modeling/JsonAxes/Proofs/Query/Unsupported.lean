import JsonAxes.Proofs.Query.Lockstep
import JsonAxes.Proofs.Query.Termination

/-!
# Axes that a tree lacks

A query whose path has a step on an axis that its tree lacks runs in lockstep with the query for the
steps in front of it (`Path.front`), until that finds its first match. There the match arrives at
the step and the query fails (`Query.run_eq_of_tail`). So it fails if and only if the steps in front
have a match, and it finds nothing before. Where the tree has all axes of a path, no query for it
fails (`yieldAt_of_supports`).
-/

set_option autoImplicit false

namespace JsonAxes

universe u

variable {N : Type u} {T : Tree N} {path lead : Path} {start : N}

namespace Path

/-- The path of the first so many steps of another. A path of these steps that is made in another
way is the same, as every path is put together from what it spells (`Made.isSpelled`). -/
def front (p : Path) (count : Nat) : Path := ofSpelled p.absolute (p.spelled.take count)

theorem spelled_front (p : Path) (count : Nat) : (p.front count).spelled = p.spelled.take count :=
  spelled_ofSpelled _ _

theorem serves_front (p : Path) (count : Nat) :
    (p.front count).names.Serves (p.front count).steps :=
  (isSpelled_ofSpelled _ _).serves

/-- Behind the first so many steps of a path comes the step with that index. -/
theorem spelled_eq_front_append {p : Path} {k : Nat} {s : Step} (hs : p.steps[k]? = some s) :
    p.spelled = (p.front k).spelled ++ s.spelled p.names :: p.spelled.drop (k + 1) := by
  have hk : p.spelled[k]? = some (s.spelled p.names) := by
    rw [spelled, List.getElem?_map, hs, Option.map_some]
  obtain ⟨hlt, hget⟩ := List.getElem?_eq_some_iff.mp hk
  rw [spelled_front, ← hget, List.getElem_cons_drop, List.take_append_drop]

end Path

namespace Search

/-- Where one search finds a match, another that has a missing step behind it fails. -/
theorem Alike.advance_of_missing {names names' : NameTable} {missing : SpelledStep}
    {tail : List SpelledStep} {s s' : Search N} (h : s.Alike names names' (missing :: tail) s')
    (hmissing : T.supports missing.axis = false) {item : Item N}
    (hitem : s.arrived? = some (item, [])) :
    s.advance T names = .matched item.place ⟨none, s.frames⟩
      ∧ s'.advance T names' = .failed missing.axis := by
  obtain ⟨arrived?, frames⟩ := s
  obtain ⟨arrived?', frames'⟩ := s'
  subst hitem
  have harrived : ArrivedAlike names names' (missing :: tail) (some (item, [])) arrived?' :=
    h.arrived
  refine ⟨rfl, ?_⟩
  cases harrived with
  | @some _ a ha =>
      obtain ⟨item', rest'⟩ := a
      obtain ⟨step, after, rfl, hstep, -⟩ := List.map_eq_cons_iff.mp ha.2
      have haxis : step.axis = missing.axis := congrArg SpelledStep.axis hstep
      rw [← haxis] at hmissing ⊢
      exact advance_of_not_supports hmissing frames'

end Search

/-- What becomes of answers where the first match turns out to be an error. -/
def Answers.failAtMatch (error : QueryError) (a : Answers N) : Answers N :=
  match a.matched with
  | [] => a
  | _ :: _ => ⟨[], .failed error⟩

theorem Answers.failAtMatch_of_ne_nil {a : Answers N} (h : a.matched ≠ []) (error : QueryError) :
    a.failAtMatch error = ⟨[], .failed error⟩ := by
  rw [failAtMatch]
  split
  · next hnil => exact absurd hnil h
  · rfl

namespace Query

/-! ## Where a step is missing -/

/-- A query whose next step behind the end of another is on an axis that the tree lacks yields what
the other yields, up to its first match, at which it fails. -/
theorem run_eq_of_tail {tail : List SpelledStep} {missing : SpelledStep}
    (hL : Lockstep T T lead path start) (hmissing : T.supports missing.axis = false)
    {s s' : Search N} (h : s.Alike lead.names path.names (missing :: tail) s')
    (hs : s.IsReal T lead start) (hs' : s'.IsReal T path start) (taken n : Nat) :
    (⟨T, path.names, s', taken, none⟩ : Query N).run n
      = ((⟨T, lead.names, s, taken, none⟩ : Query N).run n).failAtMatch
          (.unsupportedAxis missing.axis) := by
  induction n generalizing s s' taken with
  | zero => rfl
  | succ n ih =>
      rw [run, run, advance_of_not_isSpent (isSpent_of_unlimited rfl),
        advance_of_not_isSpent (isSpent_of_unlimited rfl)]
      by_cases hend : ∃ item, s.arrived? = some (item, [])
      · obtain ⟨item, hitem⟩ := hend
        obtain ⟨hmatched, hfailed⟩ := h.advance_of_missing hmissing hitem
        simp only [hmatched, hfailed]
        rw [Answers.failAtMatch_of_ne_nil (List.cons_ne_nil _ _)]
      · have hadvance := h.advance hL hs hs' (.inr fun item hitem => hend ⟨item, hitem⟩)
        have hreal := hs.advance
        have hreal' := hs'.advance
        simp only
        generalize hadv : s.advance T lead.names = advance at hadvance hreal
        generalize s'.advance T path.names = advance' at hadvance hreal'
        cases hadvance with
        | exhausted => rfl
        | moved h => exact ih h hreal hreal' (taken + 1)
        | matched p h =>
            obtain ⟨item, hitem, -⟩ := Search.exists_arrived_of_matched hadv
            exact absurd ⟨item, hitem⟩ hend
        | failed axis => rfl

/-- The steps in front of a step on an axis that the tree lacks decide what the query for all of
them yields. -/
theorem run_eq_failAtMatch (hpath : path.Made) {k : Nat} {s : Step}
    (hs : path.steps[k]? = some s) (hmissing : T.supports s.axis = false) (n : Nat) :
    (Query.start T path start none).run n
      = ((Query.start T (path.front k) start none).run n).failAtMatch
          (.unsupportedAxis s.axis) := by
  have hL : Lockstep T T (path.front k) path start :=
    ⟨⟨rfl, rfl, rfl, rfl, rfl⟩, fun _ _ => rfl, path.serves_front k, hpath.serves⟩
  have halike : (Search.start (path.front k).steps start).Alike (path.front k).names path.names
      (s.spelled path.names :: path.spelled.drop (k + 1)) (Search.start path.steps start) :=
    ⟨.some ⟨rfl, Path.spelled_eq_front_append hs⟩, .nil⟩
  exact run_eq_of_tail hL hmissing halike (Search.isReal_start (path.front k) start)
    (Search.isReal_start path start) 0 n

/-! ## Where no step is missing -/

/-- Where the tree has all axes of the path, no call yields an error. -/
theorem next_of_supports (hsupports : ∀ s ∈ path.steps, T.supports s.axis = true) {s : Search N}
    (hs : s.IsReal T path start) (taken n : Nat) :
    ∃ y s' taken', (⟨T, path.names, s, taken, none⟩ : Query N).next n
        = (y, ⟨T, path.names, s', taken', none⟩)
      ∧ s'.IsReal T path start ∧ ∀ e, y ≠ .ended (.failed e) := by
  induction n generalizing s taken with
  | zero => exact ⟨_, s, taken, rfl, hs, fun e he => by cases he⟩
  | succ n ih =>
      rw [next, advance_of_not_isSpent (isSpent_of_unlimited rfl)]
      have hreal := hs.advance
      simp only
      cases hadv : s.advance T path.names with
      | exhausted => exact ⟨_, s, taken, rfl, hs, fun e he => by cases he⟩
      | moved s' =>
          rw [hadv] at hreal
          exact ih hreal (taken + 1)
      | matched p s' =>
          rw [hadv] at hreal
          exact ⟨_, s', taken + 1, rfl, hreal.2, fun e he => by cases he⟩
      | failed axis =>
          rw [hadv] at hreal
          obtain ⟨hnot, step, hstep, haxis⟩ := hreal
          rw [← haxis, hsupports step hstep] at hnot
          cases hnot

theorem yieldAt_of_supports (hsupports : ∀ s ∈ path.steps, T.supports s.axis = true)
    {s : Search N} (hs : s.IsReal T path start) (taken n call : Nat) (e : QueryError) :
    (⟨T, path.names, s, taken, none⟩ : Query N).yieldAt n call ≠ .ended (.failed e) := by
  induction call generalizing s taken with
  | zero =>
      obtain ⟨y, s', taken', hnext, -, hy⟩ := next_of_supports hsupports hs taken n
      rw [yieldAt, hnext]
      exact hy e
  | succ call ih =>
      obtain ⟨y, s', taken', hnext, hs', -⟩ := next_of_supports hsupports hs taken n
      rw [yieldAt, hnext]
      exact ih hs' taken'

/-- A query that has ended in a run yields the answers of that run, call after call. -/
theorem yieldAt_of_run_eq {q : Query N} {n m : Nat} {a : Answers N} (h : q.run n = a)
    (ha : a.ending ≠ .unfinished) (hm : n ≤ m) (call : Nat) :
    q.yieldAt m call = a.yieldAt call := by
  have hended : (q.run n).ending ≠ .unfinished := h.symm ▸ ha
  have hlonger : q.run m = a := (run_eq_of_le hended hm).trans h
  rw [yieldAt_of_run (hlonger.symm ▸ ha), hlonger]

/-- **A query fails for an axis that its tree lacks if and only if it comes upon it, and then at
once.** Take a path with a step on such an axis, and the path of the steps in front of it; without a
limit, and whatever the tree. Expansion by expansion the query for all the steps yields what the
query for those in front yields, until that finds a match. If it finds one, the first that the
other yields is the error, and behind that it yields nothing; if it ends without one, the other
yields nothing and no error. Where the tree has the axes of all steps, no call yields an error. -/
theorem fails_iff_reached (hpath : path.Made) (T : Tree N) (start : N) :
    let query := Query.start T path start none
    (∀ (k : Nat) (s : Step), path.steps[k]? = some s → T.supports s.axis = false →
      let front := Query.start T (path.front k) start none
      let error := QueryError.unsupportedAxis s.axis
      (∀ n, query.run n = (front.run n).failAtMatch error)
      ∧ ((∃ n, (front.run n).matched ≠ []) → ∃ n, ∀ m, n ≤ m →
        query.yieldAt m 0 = .ended (.failed error)
        ∧ ∀ call, query.yieldAt m (call + 1) = .ended .exhausted)
      ∧ ((∃ n, front.run n = ⟨[], .exhausted⟩) → ∃ n, ∀ m, n ≤ m → ∀ call,
        query.yieldAt m call = .ended .exhausted))
    ∧ ((∀ s ∈ path.steps, T.supports s.axis = true) → ∀ n call e,
      query.yieldAt n call ≠ .ended (.failed e)) := by
  intro query
  refine ⟨?_, fun hsupports n call e => ?_⟩
  · intro k s hs hmissing front error
    have hrun : ∀ n, query.run n = (front.run n).failAtMatch error :=
      run_eq_failAtMatch hpath hs hmissing
    refine ⟨hrun, ?_, ?_⟩
    · rintro ⟨n, hn⟩
      have hfailed : query.run n = ⟨[], .failed error⟩ := by
        rw [hrun n, Answers.failAtMatch_of_ne_nil hn]
      refine ⟨n, fun m hm => ⟨?_, fun call => ?_⟩⟩
      · rw [yieldAt_of_run_eq hfailed nofun hm]
        rfl
      · rw [yieldAt_of_run_eq hfailed nofun hm, Answers.yieldAt_nil_succ]
    · rintro ⟨n, hn⟩
      have hended : query.run n = ⟨[], .exhausted⟩ := by
        rw [hrun n, hn]
        rfl
      refine ⟨n, fun m hm call => ?_⟩
      rw [yieldAt_of_run_eq hended nofun hm]
      cases call with
      | zero => rfl
      | succ call => exact Answers.yieldAt_nil_succ _ call
  · exact yieldAt_of_supports hsupports (Search.isReal_start path start) 0 n call e

/-- On a tree without end: a step for attributes, which it lacks, is reached with the first of
infinitely many matches; a step for namespaces behind a child that is not there is never reached. -/
theorem fails_iff_reached_ownChild :
    let reached := (Path.empty.step .descendant "a").step .attributes "b"
    let missed := (Path.empty.step .child "b").step .namespaces "*"
    (reached.Made ∧ missed.Made ∧ ownChild.tree.supports .attributes = false)
    ∧ (∃ n, ∀ m, n ≤ m →
      (Query.start ownChild.tree reached 0 none).yieldAt m 0
        = .ended (.failed (.unsupportedAxis .attributes))
      ∧ ∀ call, (Query.start ownChild.tree reached 0 none).yieldAt m (call + 1)
        = .ended .exhausted)
    ∧ ∃ n, ∀ m, n ≤ m → ∀ call,
      (Query.start ownChild.tree missed 0 none).yieldAt m call = .ended .exhausted := by
  intro reached missed
  have hreached : reached.Made := (Path.Made.empty.step .descendant "a").step .attributes "b"
  have hmissed : missed.Made := (Path.Made.empty.step .child "b").step .namespaces "*"
  refine ⟨⟨hreached, hmissed, rfl⟩, ?_, ?_⟩
  · have hfails := (fails_iff_reached hreached ownChild.tree 0).1 1 _ rfl rfl
    have hmatch : ((Query.start ownChild.tree (reached.front 1) 0 none).run 6).matched ≠ [] := by
      intro h
      cases h
    exact hfails.2.1 ⟨6, hmatch⟩
  · have hends := (fails_iff_reached hmissed ownChild.tree 0).1 1 _ rfl rfl
    have hnone : (Query.start ownChild.tree (missed.front 1) 0 none).run 6
        = ⟨[], .exhausted⟩ := rfl
    exact hends.2.2 ⟨6, hnone⟩

end Query

end JsonAxes
