import JsonAxes.Proofs.Query.Evaluation
import JsonAxes.Proofs.Tree.Documents
import JsonAxes.Query.Document

/-!
# All matches in a document

Every query of a document comes to an end, with a limit and without one (`Document.halts_query`). So
all its matches can be had at once (`Document.search`).
-/

set_option autoImplicit false

namespace JsonAxes.Document

/-- A query of a document comes to an end: where nothing limits it, because every walk through the
document does. -/
theorem halts_query (path : Path) (v : Value) (limit? : Option Nat) :
    (query path v limit?).Halts := by
  cases limit? with
  | some limit => exact Query.halts_of_limit rfl (Nat.zero_le limit)
  | none =>
      obtain ⟨n, hn⟩ := Query.exists_run_eq_answers path (Node.grounded (.root v))
      have hrun : (query path v none).run n = path.answers Node.tree (.root v) :=
        hn n (Nat.le_refl n)
      apply Query.halts_of_run
      rw [hrun]
      exact path.ending_answers Node.tree (.root v)

/-- All matches of a path in a document, and how the query ended behind them. -/
def search (path : Path) (v : Value) (limit? : Option Nat) : Answers Node :=
  (query path v limit?).toEnd (halts_query path v limit?)

theorem ending_search (path : Path) (v : Value) (limit? : Option Nat) :
    (search path v limit?).ending ≠ .unfinished := Query.ending_toEnd _

/-- The matches of a path in a document, or the error that ended the search. -/
def select (path : Path) (v : Value) : Except QueryError (List (Place Node)) :=
  let answers := search path v none
  match answers.ending.error? (ending_search path v none) with
  | none => .ok answers.matched
  | some e => .error e

/-- A search yields what a run of its query yields that is long enough. -/
theorem search_eq_run {path : Path} {v : Value} {limit? : Option Nat} {n : Nat}
    (hn : ((query path v limit?).run n).ending ≠ .unfinished) :
    search path v limit? = (query path v limit?).run n := Query.toEnd_eq_run _ hn

theorem select_of_run {path : Path} {v : Value} {n : Nat}
    (hn : ((query path v none).run n).ending = .exhausted) :
    select path v = .ok ((query path v none).run n).matched := by
  have hsearch : search path v none = (query path v none).run n :=
    search_eq_run (by rw [hn]; exact nofun)
  have hending : (search path v none).ending = .exhausted := by rw [hsearch, hn]
  rw [select, Ending.error?_of_exhausted _ hending, hsearch]

/-- Some run of the query is long enough. -/
theorem exists_search_eq_run (path : Path) (v : Value) (limit? : Option Nat) :
    ∃ n, search path v limit? = (query path v limit?).run n := by
  obtain ⟨n, hn⟩ := (halts_query path v limit?).exists_run
  exact ⟨n, search_eq_run hn⟩

end JsonAxes.Document
