import JsonAxes.Query.Search

/-!
# Queries

A query is a search whose expansions are counted, and which gives up when it has performed as many
as it may. It yields one match after another; an error ends it, and then it yields nothing more.

Trees may be infinite to walk, so a query is run for a given number of expansions, and the run says
whether the query ended within it (`Query.run`). Going on behind that point changes nothing
(`Query.run_eq_of_le`). A query that is known to come to an end (`Query.Halts`) is run until it does
(`Query.toEnd`), which is what a run yields that is long enough (`Query.toEnd_eq_run`). A limit
makes every query one of these.
-/

set_option autoImplicit false

namespace JsonAxes

universe u

/-- Why a query ended early. -/
inductive QueryError where
  | unsupportedAxis (axis : Axis)
  | stepLimitExceeded (limit : Nat)
  deriving DecidableEq, Repr

/-- The wording of an error. -/
def QueryError.message : QueryError → String
  | unsupportedAxis axis => "the " ++ axis.name ++ " axis is not supported by this tree"
  | stepLimitExceeded limit =>
    "query exceeded its limit of " ++ toString limit ++ " evaluation steps"

/-- A search with a count of its expansions and a limit on them. -/
structure Query (N : Type u) where
  tree : Tree N
  names : NameTable
  search : Search N
  taken : Nat
  limit? : Option Nat

/-- How a run of a query ended. -/
inductive Ending where
  /-- Nothing was left to do. -/
  | exhausted
  /-- An error ended the query. -/
  | failed (e : QueryError)
  /-- The run ended, but the query did not. -/
  | unfinished
  deriving DecidableEq, Repr

/-- What a query yields in a run: the matches, and how the run ended behind them. -/
structure Answers (N : Type u) where
  matched : List (Place N)
  ending : Ending

/-- What a query yields when it is asked for one more match. -/
inductive Yield (N : Type u) where
  | matched (place : Place N)
  | ended (ending : Ending)

variable {N : Type u}

/-- The error that a query ended with, if it ended at all. -/
def Ending.error? : (ending : Ending) → ending ≠ .unfinished → Option QueryError
  | exhausted, _ => none
  | failed e, _ => some e
  | unfinished, h => absurd rfl h

theorem Ending.error?_of_exhausted {ending : Ending} (h : ending ≠ .unfinished)
    (hending : ending = .exhausted) : ending.error? h = none := by
  subst hending
  rfl

theorem Ending.error?_of_failed {ending : Ending} {e : QueryError} (h : ending ≠ .unfinished)
    (hending : ending = .failed e) : ending.error? h = some e := by
  subst hending
  rfl

namespace Query

/-- A query for a path from a node. -/
def start (tree : Tree N) (path : Path) (node : N) (limit? : Option Nat) : Query N :=
  ⟨tree, path.names, .start path.steps node, 0, limit?⟩

/-- A query that has ended. -/
def ended (q : Query N) : Query N := { q with search := .finished }

/-- What one expansion of a query yields. -/
inductive Progress (N : Type u) where
  /-- Nothing, and nothing is left. -/
  | exhausted
  /-- Nothing yet. -/
  | working (q : Query N)
  | matched (place : Place N) (q : Query N)
  | failed (e : QueryError) (q : Query N)

/-- Whether a query has performed as many expansions as it may. -/
def isSpent (q : Query N) : Bool := q.limit?.any (· ≤ q.taken)

/-- Performs one expansion. -/
def advance (q : Query N) : Progress N :=
  -- a search with nothing left to do ends quietly, whatever its limit
  if q.search.isExhausted then .exhausted
  else if q.isSpent then .failed (.stepLimitExceeded (q.limit?.getD 0)) q.ended
  else
    let counted (s : Search N) : Query N := { q with search := s, taken := q.taken + 1 }
    match q.search.advance q.tree q.names with
    | .exhausted => .exhausted
    | .moved s => .working (counted s)
    | .matched place s => .matched place (counted s)
    | .failed axis => .failed (.unsupportedAxis axis) q.ended

/-- What a query yields next within a number of expansions, and the query behind it. -/
def next (q : Query N) : Nat → Yield N × Query N
  | 0 => (.ended .unfinished, q)
  | expansions + 1 =>
    match q.advance with
    | .exhausted => (.ended .exhausted, q)
    | .working q => q.next expansions
    | .matched place q => (.matched place, q)
    | .failed e q => (.ended (.failed e), q)

/-- All that a query yields within a number of expansions. -/
def run (q : Query N) : Nat → Answers N
  | 0 => ⟨[], .unfinished⟩
  | expansions + 1 =>
    match q.advance with
    | .exhausted => ⟨[], .exhausted⟩
    | .working q => q.run expansions
    | .matched place q =>
      let answers := q.run expansions
      ⟨place :: answers.matched, answers.ending⟩
    | .failed e _ => ⟨[], .failed e⟩

/-! ## How long to run -/

/-- A run that ended with the query ends the same way however much longer it may go on. -/
theorem run_eq_of_le {q : Query N} {m n : Nat} (h : (q.run m).ending ≠ .unfinished)
    (hmn : m ≤ n) : q.run n = q.run m := by
  induction m generalizing q n with
  | zero => exact absurd rfl h
  | succ m ih =>
    obtain ⟨n, rfl⟩ : ∃ k, n = k + 1 := ⟨n - 1, by omega⟩
    simp only [run] at h ⊢
    split
    · rfl
    · next q' hq =>
      simp only [hq] at h
      exact ih h (by omega)
    · next place q' hq =>
      simp only [hq] at h
      rw [ih h (by omega)]
    · rfl

/-- An expansion is counted, and the limit stays. -/
theorem advance_count {q q' : Query N}
    (h : q.advance = .working q' ∨ ∃ p, q.advance = .matched p q') :
    q'.limit? = q.limit? ∧ q'.taken = q.taken + 1 ∧ q.isSpent = false := by
  unfold advance at h
  split at h
  · simp at h
  · split at h
    · simp at h
    · next hs =>
      simp only at h
      split at h <;> simp at h <;> subst h <;> exact ⟨rfl, rfl, by simpa using hs⟩

/-- A limited query ends within the expansions that its limit leaves no room for. -/
theorem ending_run_of_limit {q : Query N} {limit n : Nat} (h : q.limit? = some limit)
    (hn : limit < q.taken + n) (ht : q.taken ≤ limit) : (q.run n).ending ≠ .unfinished := by
  induction n generalizing q with
  | zero => omega
  | succ n ih =>
    simp only [run]
    split
    · simp
    · next q' hq =>
      obtain ⟨hl, hc, hs⟩ := advance_count (.inl hq)
      have : q.taken < limit := by simpa [isSpent, h] using hs
      exact ih (hl.trans h) (by omega) (by omega)
    · next place q' hq =>
      obtain ⟨hl, hc, hs⟩ := advance_count (.inr ⟨place, hq⟩)
      have : q.taken < limit := by simpa [isSpent, h] using hs
      exact ih (hl.trans h) (by omega) (by omega)
    · simp

/-! ## Running to the end -/

/-- The query behind an expansion that did not end it. -/
def Progress.onward? : Progress N → Option (Query N)
  | exhausted => none
  | working q => some q
  | matched _ q => some q
  | failed _ _ => none

/-- Whether a query is what an expansion of another one leaves, without ending it. -/
def IsBehind (q' q : Query N) : Prop := q.advance.onward? = some q'

/-- Whether a query comes to an end, one expansion after another. -/
def Halts (q : Query N) : Prop := Acc IsBehind q

/-- What an expansion leaves of a query that comes to an end comes to an end. -/
theorem Halts.onward {q q' : Query N} (h : q.Halts) (hq : q.advance.onward? = some q') : q'.Halts :=
  h.inv hq

/-- All that a query yields until it ends. -/
def toEnd (q : Query N) (h : q.Halts) : Answers N :=
  match hq : q.advance with
  | .exhausted => ⟨[], .exhausted⟩
  | .working q' => q'.toEnd (h.onward (congrArg Progress.onward? hq))
  | .matched place q' =>
    let answers := q'.toEnd (h.onward (congrArg Progress.onward? hq))
    ⟨place :: answers.matched, answers.ending⟩
  | .failed e _ => ⟨[], .failed e⟩
  termination_by (⟨q, h⟩ : { q : Query N // Acc IsBehind q })
  decreasing_by
    · exact congrArg Progress.onward? hq
    · exact congrArg Progress.onward? hq

section Advance

variable {q q' : Query N} {place : Place N} {e : QueryError}

theorem run_of_exhausted (hq : q.advance = .exhausted) (n : Nat) :
    q.run (n + 1) = ⟨[], .exhausted⟩ := by
  rw [run, hq]

theorem run_of_working (hq : q.advance = .working q') (n : Nat) : q.run (n + 1) = q'.run n := by
  rw [run, hq]

theorem run_of_matched (hq : q.advance = .matched place q') (n : Nat) :
    q.run (n + 1) = ⟨place :: (q'.run n).matched, (q'.run n).ending⟩ := by
  rw [run, hq]

theorem run_of_failed (hq : q.advance = .failed e q') (n : Nat) :
    q.run (n + 1) = ⟨[], .failed e⟩ := by
  rw [run, hq]

end Advance

/-- A query that ends within a run comes to an end. -/
theorem halts_of_run {q : Query N} {n : Nat} (h : (q.run n).ending ≠ .unfinished) : q.Halts := by
  induction n generalizing q with
  | zero => exact absurd rfl h
  | succ n ih =>
    refine ⟨q, fun q' hbehind => ?_⟩
    rw [IsBehind] at hbehind
    cases hq : q.advance with
    | exhausted | failed =>
      rw [hq] at hbehind
      cases hbehind
    | working q'' =>
      rw [hq] at hbehind
      cases hbehind
      rw [run_of_working hq] at h
      exact ih h
    | matched place q'' =>
      rw [hq] at hbehind
      cases hbehind
      rw [run_of_matched hq] at h
      exact ih h

/-- A query yields until its end what it yields in a run that it ends within. -/
theorem toEnd_eq_run {q : Query N} {n : Nat} (h : q.Halts)
    (hn : (q.run n).ending ≠ .unfinished) : q.toEnd h = q.run n := by
  induction n generalizing q with
  | zero => exact absurd rfl hn
  | succ n ih =>
    rw [toEnd]
    split
    · next hq => rw [run_of_exhausted hq]
    · next q' hq =>
      rw [run_of_working hq] at hn ⊢
      exact ih _ hn
    · next place q' hq =>
      rw [run_of_matched hq] at hn ⊢
      exact congrArg (fun a => Answers.mk (place :: a.matched) a.ending) (ih _ hn)
    · next e q' hq => rw [run_of_failed hq]

/-- A query that comes to an end does so within some run. -/
theorem Halts.exists_run {q : Query N} (h : q.Halts) : ∃ n, (q.run n).ending ≠ .unfinished := by
  induction h with
  | intro q _ ih =>
    cases hq : q.advance with
    | exhausted => exact ⟨1, by simp [run_of_exhausted hq]⟩
    | working q' =>
      obtain ⟨n, hn⟩ := ih q' (congrArg Progress.onward? hq)
      exact ⟨n + 1, by rwa [run_of_working hq]⟩
    | matched place q' =>
      obtain ⟨n, hn⟩ := ih q' (congrArg Progress.onward? hq)
      exact ⟨n + 1, by rwa [run_of_matched hq]⟩
    | failed e q' => exact ⟨1, by simp [run_of_failed hq]⟩

/-- At its end a query is no longer unfinished. -/
theorem ending_toEnd {q : Query N} (h : q.Halts) : (q.toEnd h).ending ≠ .unfinished := by
  obtain ⟨n, hn⟩ := h.exists_run
  rw [toEnd_eq_run h hn]
  exact hn

/-- A query that may not go on forever comes to an end. -/
theorem halts_of_limit {q : Query N} {limit : Nat} (h : q.limit? = some limit)
    (ht : q.taken ≤ limit) : q.Halts := by
  have hended : (q.run (limit + 1)).ending ≠ .unfinished := ending_run_of_limit h (by omega) ht
  exact halts_of_run hended

end Query

end JsonAxes
