import JsonAxes.Proofs.Query.Evaluation
import JsonAxes.Proofs.Query.Limit
import JsonAxes.Proofs.Tree.Grounded

/-!
# Queries end

A query ends after finitely many expansions if no walk through its tree goes on forever: not down
from a node that it can reach, and not up from its start. No limit is needed for this, and the steps
of the path may lead up and down as often as they like. Call after call the query then yields its
matches, says once how it ended, and is exhausted (`Query.yieldAt_of_run`).
-/

set_option autoImplicit false

namespace JsonAxes

universe u

variable {N : Type u}

namespace Query

/-! ## Calls of a query that ends -/

/-- What a query that ends within a number of expansions yields next: its first match, or how it
ended. -/
theorem next_of_run {q : Query N} {n : Nat} (h : (q.run n).ending ≠ .unfinished) :
    (∃ place q', q.next n = (.matched place, q')
      ∧ q.run n = ⟨place :: (q'.run n).matched, (q'.run n).ending⟩)
    ∨ ∃ q', q.next n = (.ended (q.run n).ending, q') ∧ (q.run n).matched = [] := by
  -- what is left to a query behind its first match ends within as many expansions all the more
  induction n generalizing q with
  | zero => exact absurd rfl h
  | succ n ih =>
      rw [run] at h ⊢
      rw [next]
      cases hq : q.advance with
      | exhausted => exact .inr ⟨q, rfl, rfl⟩
      | working q₁ =>
          rw [hq] at h
          have hended : (q₁.run n).ending ≠ .unfinished := h
          rcases ih hended with ⟨place, q', hnext, hrun⟩ | hnone
          · have hended' : (q'.run n).ending ≠ .unfinished := by
              rw [hrun] at hended
              exact hended
            have hlonger : q'.run (n + 1) = q'.run n := run_eq_of_le hended' (Nat.le_succ n)
            exact .inl ⟨place, q', hnext, by rw [hlonger]; exact hrun⟩
          · exact .inr hnone
      | matched place q₁ =>
          rw [hq] at h
          have hended : (q₁.run n).ending ≠ .unfinished := h
          have hlonger : q₁.run (n + 1) = q₁.run n := run_eq_of_le hended (Nat.le_succ n)
          exact .inl ⟨place, q₁, rfl, by rw [hlonger]⟩
      | failed e q₁ => exact .inr ⟨q₁, rfl, rfl⟩

/-- A query that ends within a number of expansions yields, in calls of as many, what it yields in
one run. -/
theorem yieldAt_of_run {q : Query N} {n : Nat} (h : (q.run n).ending ≠ .unfinished) (call : Nat) :
    q.yieldAt n call = (q.run n).yieldAt call := by
  induction call generalizing q with
  | zero =>
      rw [yieldAt, Answers.yieldAt]
      rcases next_of_run h with ⟨place, q', hnext, hrun⟩ | ⟨q', hnext, hnone⟩
      · rw [hnext, hrun]
        rfl
      · rw [hnext, hnone]
        rfl
  | succ call ih =>
      rw [yieldAt]
      rcases next_of_run h with ⟨place, q', hnext, hrun⟩ | ⟨q', hnext, hnone⟩
      · rw [hrun] at h
        rw [hnext, ih h, hrun, Answers.yieldAt_cons]
      · obtain ⟨n, rfl⟩ : ∃ k, n = k + 1 := by
          cases n with
          | zero => exact absurd rfl h
          | succ n => exact ⟨n, rfl⟩
        have hrun : q.run (n + 1) = ⟨[], (q.run (n + 1)).ending⟩ := by rw [← hnone]
        rw [hnext, yieldAt_of_isExhausted (isExhausted_of_next hnext h), hrun,
          Answers.yieldAt_nil_succ]

/-! ## Queries that end -/

/-- Whether a query ends after finitely many expansions, exhausted or with an axis that its tree
does not support; any longer run, and any calls that allow as many expansions, yield the same. -/
def Ends (q : Query N) : Prop :=
  ∃ n, ((q.run n).ending = .exhausted
      ∨ ∃ axis, (q.run n).ending = .failed (.unsupportedAxis axis))
    ∧ ∀ m, n ≤ m → q.run m = q.run n ∧ ∀ call, q.yieldAt m call = (q.run n).yieldAt call

theorem ends_of_grounded {T : Tree N} {start : N} (path : Path) (hT : T.Grounded start) :
    (Query.start T path start none).Ends := by
  obtain ⟨n, hn⟩ := exists_run_eq_answers path hT
  have hending : (path.answers T start).ending = .exhausted
      ∨ ∃ axis, (path.answers T start).ending = .failed (.unsupportedAxis axis) := by
    rw [Path.answers, Path.answersFrom]
    cases Path.faultIn? T path.names path.steps (.root start) with
    | none => exact .inl rfl
    | some axis => exact .inr ⟨axis, rfl⟩
  have hfinished : (path.answers T start).ending ≠ .unfinished := path.ending_answers T start
  refine ⟨n, by rw [hn n (Nat.le_refl n)]; exact hending, fun m hm => ?_⟩
  rw [hn n (Nat.le_refl n)]
  have hrun := hn m hm
  refine ⟨hrun, fun call => ?_⟩
  rw [← hrun]
  apply yieldAt_of_run
  rw [hrun]
  exact hfinished

/-- **Every query over a finite tree ends.** Where there is no infinite sequence of children from a
node that the start reaches, and no infinite sequence of parents from the start, a query for any
path ends after finitely many expansions, without a limit. Documents are such trees. -/
theorem ends_of_no_infinite_walk (path : Path) :
    (∀ (N : Type u) (T : Tree N) (start : N),
      (∀ p, T.Reaches start p →
        ¬ ∃ f : Nat → N, f 0 = p.node ∧ ∀ i, T.IsChild (f (i + 1)) (f i)) →
      (T.knowsParents = true →
        ¬ ∃ f : Nat → N, f 0 = start ∧ ∀ i, T.parent? (f i) = some (f (i + 1))) →
      (Query.start T path start none).Ends)
    ∧ ∀ v : Value, (Document.query path v none).Ends := by
  constructor
  · intro N T start hbelow habove
    exact ends_of_grounded path (Tree.grounded_iff.mpr ⟨hbelow, habove⟩)
  · intro v
    exact ends_of_grounded path (Node.grounded (.root v))

/-- The numbers as a tree, in which every number has the smaller ones as its children; those below
three name the next number as their parent. -/
def countdown : Tree Nat where
  tag n := toString n
  children := List.range
  knowsParents := true
  parent? n := if n < 3 then some (n + 1) else none
  hasAttributes := false
  attribute? _ _ := none
  attributeNames _ := []

/-- There are infinitely many numbers, and up and down again one comes to larger ones, but no walk
goes on forever. -/
theorem ends_of_no_infinite_walk_countdown :
    let path := ((Path.empty.step .ancestor "*").step .descendant "*").step .preceding "*"
    (∀ p, countdown.Reaches 1 p →
      ¬ ∃ f : Nat → Nat, f 0 = p.node ∧ ∀ i, countdown.IsChild (f (i + 1)) (f i))
    ∧ (¬ ∃ f : Nat → Nat, f 0 = 1 ∧ ∀ i, countdown.parent? (f i) = some (f (i + 1)))
    ∧ (Query.start countdown path 1 none).Ends := by
  intro path
  have hbelow : ∀ p, countdown.Reaches 1 p →
      ¬ ∃ f : Nat → Nat, f 0 = p.node ∧ ∀ i, countdown.IsChild (f (i + 1)) (f i) := by
    rintro p - ⟨f, hstart, hchild⟩
    have hlt : ∀ i, f (i + 1) < f i := fun i => List.mem_range.mp (hchild i)
    have hacc : ¬ Acc (· < ·) p.node := not_acc_iff_exists_descending_chain.mpr ⟨f, hstart, hlt⟩
    exact hacc (Nat.lt_wfRel.wf.apply p.node)
  have habove : ¬ ∃ f : Nat → Nat, f 0 = 1
      ∧ ∀ i, countdown.parent? (f i) = some (f (i + 1)) := by
    rintro ⟨f, hstart, hparent⟩
    have h₁ : f 1 = 2 := by
      have h := hparent 0
      rw [hstart] at h
      exact (Option.some.inj h).symm
    have h₂ : f 2 = 3 := by
      have h := hparent 1
      rw [h₁] at h
      exact (Option.some.inj h).symm
    have h₃ := hparent 2
    rw [h₂] at h₃
    cases h₃
  exact ⟨hbelow, habove,
    (ends_of_no_infinite_walk path).1 Nat countdown 1 hbelow fun _ => habove⟩

end Query

end JsonAxes
