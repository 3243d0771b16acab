import JsonAxes.Proofs.Query.Step
import JsonAxes.Query.Select
import JsonAxes.Tree.Table

/-!
# Limits cut queries short

A query with a limit does what it would do without, until it has performed as many expansions as the
limit allows; if there is still something left to do then, it fails. `Query.within` says what the
first expansions of a query yield, `Query.yieldAt` what it yields when it is asked again and again.
The tree may be anything here: its walks need not end.
-/

set_option autoImplicit false

namespace JsonAxes

universe u

variable {N : Type u}

/-- How a query ends that may perform no further expansion: what is unfinished is an error. -/
def Ending.cutAt (limit : Nat) : Ending → Ending
  | .unfinished => .failed (.stepLimitExceeded limit)
  | ending => ending

/-- What is yielded in each call, counted from zero, by a query with some answers: one match after
the other, then how it ended, and then nothing any more. -/
def Answers.yieldAt (a : Answers N) (call : Nat) : Yield N :=
  match a.matched[call]? with
  | some place => .matched place
  | none => .ended (if call = a.matched.length then a.ending else .exhausted)

namespace Answers

theorem yieldAt_cons (place : Place N) (ps : List (Place N)) (ending : Ending) (call : Nat) :
    yieldAt ⟨place :: ps, ending⟩ (call + 1) = yieldAt ⟨ps, ending⟩ call := by
  simp only [yieldAt, List.getElem?_cons_succ, List.length_cons, Nat.add_right_cancel_iff]

/-- Behind the end nothing is yielded. -/
theorem yieldAt_nil_succ (ending : Ending) (call : Nat) :
    (⟨[], ending⟩ : Answers N).yieldAt (call + 1) = .ended .exhausted := by
  simp [yieldAt]

end Answers

namespace Query

/-- What the first so many expansions of a query yield. The ending is `unfinished` if there is
something left to do behind them. -/
def within (q : Query N) : Nat → Answers N
  | 0 => ⟨[], if q.search.isExhausted then .exhausted else .unfinished⟩
  | expansions + 1 =>
    match q.advance with
    | .exhausted => ⟨[], .exhausted⟩
    | .working q => q.within expansions
    | .matched place q =>
      let answers := q.within expansions
      ⟨place :: answers.matched, answers.ending⟩
    | .failed e _ => ⟨[], .failed e⟩

/-- What a query yields in a call, counted from zero, when every call allows so many expansions. -/
def yieldAt (q : Query N) (expansions : Nat) : Nat → Yield N
  | 0 => (q.next expansions).1
  | call + 1 => (q.next expansions).2.yieldAt expansions call

/-- A query with a limit in place of the one it has. -/
def limitedTo (q : Query N) (limit : Nat) : Query N := { q with limit? := some limit }

/-! ## The first expansions of a run -/

/-- What the first expansions yield is found by a run of as many. -/
theorem matched_within (q : Query N) (n : Nat) : (q.within n).matched = (q.run n).matched := by
  induction n generalizing q with
  | zero => rfl
  | succ n ih =>
      rw [within, run]
      cases q.advance with
      | exhausted => rfl
      | working q' => exact ih q'
      | matched place q' => exact congrArg (place :: ·) (ih q')
      | failed e q' => rfl

/-- A query that ended with its first expansions has ended so in every longer run. -/
theorem run_eq_within {q : Query N} {n m : Nat} (h : (q.within n).ending ≠ .unfinished)
    (hm : n < m) : q.run m = q.within n := by
  induction n generalizing q m with
  | zero =>
      -- that nothing is left shows in a run only when another expansion is asked for
      obtain ⟨m, rfl⟩ : ∃ k, m = k + 1 := ⟨m - 1, by omega⟩
      cases hex : q.search.isExhausted with
      | true => simp only [run, advance_of_isExhausted hex, within, hex, if_true]
      | false => simp [within, hex] at h
  | succ n ih =>
      obtain ⟨m, rfl⟩ : ∃ k, m = k + 1 := ⟨m - 1, by omega⟩
      rw [within] at h ⊢
      rw [run]
      cases hq : q.advance with
      | exhausted => rfl
      | working q' =>
          rw [hq] at h
          exact ih h (by omega)
      | matched place q' =>
          rw [hq] at h
          have hrun : q'.run m = q'.within n := ih h (by omega)
          simp only [hrun]
      | failed e q' => rfl

/-- More expansions yield more behind what fewer yield. -/
theorem matched_within_prefix (q : Query N) {m n : Nat} (h : m ≤ n) :
    (q.within m).matched <+: (q.within n).matched := by
  induction m generalizing q n with
  | zero => exact List.nil_prefix
  | succ m ih =>
      obtain ⟨n, rfl⟩ : ∃ k, n = k + 1 := ⟨n - 1, by omega⟩
      rw [within, within]
      cases q.advance with
      | exhausted => exact List.nil_prefix
      | working q' => exact ih q' (by omega)
      | matched place q' => exact List.cons_prefix_cons.mpr ⟨rfl, ih q' (by omega)⟩
      | failed e q' => exact List.nil_prefix

/-! ## The end of a query -/

/-- A query with nothing left to do yields nothing more. -/
theorem next_of_isExhausted {q : Query N} (h : q.search.isExhausted = true) (n : Nat) :
    q.next (n + 1) = (.ended .exhausted, q) := by
  rw [next, advance_of_isExhausted h]

theorem yieldAt_of_isExhausted {q : Query N} (h : q.search.isExhausted = true) (n call : Nat) :
    q.yieldAt (n + 1) call = .ended .exhausted := by
  induction call with
  | zero => rw [yieldAt, next_of_isExhausted h]
  | succ call ih => rw [yieldAt, next_of_isExhausted h, ih]

/-- Behind its end a query has nothing left to do. -/
theorem isExhausted_of_next {q q' : Query N} {n : Nat} {ending : Ending}
    (h : q.next n = (.ended ending, q')) (he : ending ≠ .unfinished) :
    q'.search.isExhausted = true := by
  induction n generalizing q with
  | zero =>
      cases h
      exact absurd rfl he
  | succ n ih =>
      rw [next] at h
      cases hq : q.advance with
      | exhausted =>
          rw [hq] at h
          cases h
          exact (advance_eq_exhausted_iff _).mp hq
      | working q₁ =>
          rw [hq] at h
          exact ih h
      | matched place q₁ =>
          rw [hq] at h
          cases h
      | failed e q₁ =>
          rw [hq] at h
          cases h
          exact isExhausted_of_failed hq

/-! ## A query with a limit beside the one without -/

/-- The same progress under a limit. -/
def Progress.limitedTo (limit : Nat) : Progress N → Progress N
  | .exhausted => .exhausted
  | .working q => .working (q.limitedTo limit)
  | .matched place q => .matched place (q.limitedTo limit)
  | .failed e q => .failed e (q.limitedTo limit)

/-- Below its limit a query makes the progress that it makes without. -/
theorem advance_limitedTo {q : Query N} {limit : Nat} (hq : q.limit? = none)
    (h : q.taken < limit) : (q.limitedTo limit).advance = q.advance.limitedTo limit := by
  have hs : (q.limitedTo limit).isSpent = false := decide_eq_false (Nat.not_le.mpr h)
  rw [advance_of_not_isSpent hs, advance_of_not_isSpent (isSpent_of_unlimited hq)]
  simp only [limitedTo]
  cases q.search.advance q.tree q.names <;> rfl

/-- At its limit a query ends: without an error only if nothing is left to do. -/
theorem next_at_limit (q : Query N) (n : Nat) :
    ∃ q', (q.limitedTo q.taken).next (n + 1)
        = (.ended ((q.within 0).ending.cutAt q.taken), q')
      ∧ q'.search.isExhausted = true := by
  cases hex : q.search.isExhausted with
  | true =>
      refine ⟨q.limitedTo q.taken, ?_, hex⟩
      rw [next_of_isExhausted (q := q.limitedTo q.taken) hex, within, if_pos hex]
      rfl
  | false =>
      have hs : (q.limitedTo q.taken).isSpent = true := decide_eq_true (Nat.le_refl q.taken)
      refine ⟨(q.limitedTo q.taken).ended, ?_, rfl⟩
      rw [next, advance_of_isSpent (q := q.limitedTo q.taken) hex hs, within,
        if_neg (by simp [hex])]
      rfl

/-- What a query yields next under a limit that leaves room for some expansions is the first of what
it yields within these without the limit, and the rest is yielded behind it. -/
theorem next_limitedTo {limit room n : Nat} {q : Query N} (hq : q.limit? = none)
    (hroom : q.taken + room = limit) (hn : room < n) :
    (∃ (place : Place N) (q' : Query N) (room' : Nat),
        (q.limitedTo limit).next n = (.matched place, q'.limitedTo limit)
        ∧ q'.limit? = none ∧ q'.taken + room' = limit ∧ room' < n
        ∧ q.within room = ⟨place :: (q'.within room').matched, (q'.within room').ending⟩)
    ∨ ∃ q', (q.limitedTo limit).next n = (.ended ((q.within room).ending.cutAt limit), q')
        ∧ (q.within room).matched = [] ∧ q'.search.isExhausted = true := by
  -- on the room that is left: expansions without a match use it up within one call
  induction room generalizing q n with
  | zero =>
      obtain ⟨n, rfl⟩ : ∃ k, n = k + 1 := ⟨n - 1, by omega⟩
      obtain rfl : q.taken = limit := hroom
      obtain ⟨q', hnext, hex⟩ := next_at_limit q n
      exact .inr ⟨q', hnext, rfl, hex⟩
  | succ room ih =>
      obtain ⟨n, rfl⟩ : ∃ k, n = k + 1 := ⟨n - 1, by omega⟩
      rw [next, advance_limitedTo hq (by omega), within]
      cases hp : q.advance with
      | exhausted =>
          exact .inr ⟨_, rfl, rfl, (advance_eq_exhausted_iff q).mp hp⟩
      | working q' =>
          obtain ⟨hl, ht, _⟩ := advance_count (.inl hp)
          rcases ih (hl.trans hq) (by omega) (show room < n by omega) with
            ⟨place, q'', room', h, hl', hr', hn', hw⟩ | h
          · exact .inl ⟨place, q'', room', h, hl', hr', by omega, hw⟩
          · exact .inr h
      | matched place q' =>
          obtain ⟨hl, ht, _⟩ := advance_count (.inr ⟨place, hp⟩)
          exact .inl ⟨place, q', room, rfl, hl.trans hq, by omega, by omega, rfl⟩
      | failed e q' =>
          have hex : q'.search.isExhausted = true := isExhausted_of_failed hp
          exact .inr ⟨_, rfl, rfl, hex⟩

/-- What a query yields under a limit: the matches within the room that is left, then the end once,
and then nothing any more. -/
theorem yieldAt_limitedTo {limit room n : Nat} {q : Query N} (hq : q.limit? = none)
    (hroom : q.taken + room = limit) (hn : room < n) (call : Nat) :
    (q.limitedTo limit).yieldAt n call
      = (⟨(q.within room).matched, (q.within room).ending.cutAt limit⟩ :
          Answers N).yieldAt call := by
  -- on the calls: each match leaves a query with less room, to which the same applies
  induction call generalizing q room with
  | zero =>
      rw [yieldAt, Answers.yieldAt]
      rcases next_limitedTo hq hroom hn with
        ⟨place, q', room', hnext, -, -, -, hw⟩ | ⟨q', hnext, hnil, -⟩
      · rw [hnext, hw]
        rfl
      · rw [hnext, hnil]
        rfl
  | succ call ih =>
      rw [yieldAt]
      rcases next_limitedTo hq hroom hn with
        ⟨place, q', room', hnext, hq', hroom', hn', hw⟩ | ⟨q', hnext, hnil, hex⟩
      · rw [hnext, ih hq' hroom' hn', hw, Answers.yieldAt_cons]
      · obtain ⟨n, rfl⟩ : ∃ k, n = k + 1 := ⟨n - 1, by omega⟩
        rw [hnext, yieldAt_of_isExhausted hex, hnil, Answers.yieldAt_nil_succ]

/-- In a run that is longer than its limit allows, a query yields what it yields within the room
that is left. -/
theorem run_limitedTo {limit room n : Nat} {q : Query N} (hq : q.limit? = none)
    (hroom : q.taken + room = limit) (hn : room < n) :
    (q.limitedTo limit).run n
      = ⟨(q.within room).matched, (q.within room).ending.cutAt limit⟩ := by
  induction room generalizing q n with
  | zero =>
      obtain ⟨n, rfl⟩ : ∃ k, n = k + 1 := ⟨n - 1, by omega⟩
      obtain rfl : q.taken = limit := hroom
      cases hex : q.search.isExhausted with
      | true =>
          rw [run, advance_of_isExhausted (q := q.limitedTo q.taken) hex, within, if_pos hex]
          rfl
      | false =>
          have hs : (q.limitedTo q.taken).isSpent = true := decide_eq_true (Nat.le_refl q.taken)
          rw [run, advance_of_isSpent (q := q.limitedTo q.taken) hex hs, within,
            if_neg (by simp [hex])]
          rfl
  | succ room ih =>
      obtain ⟨n, rfl⟩ : ∃ k, n = k + 1 := ⟨n - 1, by omega⟩
      rw [run, advance_limitedTo hq (by omega), within]
      cases hp : q.advance with
      | exhausted => rfl
      | working q' =>
          obtain ⟨hl, ht, _⟩ := advance_count (.inl hp)
          exact ih (hl.trans hq) (by omega) (by omega)
      | matched place q' =>
          obtain ⟨hl, ht, _⟩ := advance_count (.inr ⟨place, hp⟩)
          have hrest : (q'.limitedTo limit).run n = _ := ih (hl.trans hq) (by omega) (by omega)
          simp only [Progress.limitedTo, hrest]
      | failed e q' => rfl

/-- **A limit cuts a query short and changes nothing else.** Call after call, a query with a limit
yields the matches that the first expansions of the query without it yield, as many as the limit
allows; then it ends once, as the other query does if that ends with these expansions, and with an
error of its own otherwise; then it yields nothing. A larger limit yields more behind the same
matches. Whatever the query, behind its end it yields nothing any more. -/
theorem yieldAt_of_limit (T : Tree N) (path : Path) (node : N) (limit : Nat) :
    let free := Query.start T path node none
    let cut := Query.start T path node (some limit)
    (∀ n, limit < n → ∀ call, cut.yieldAt n call
      = (⟨(free.within limit).matched, (free.within limit).ending.cutAt limit⟩ :
          Answers N).yieldAt call)
    ∧ (free.within limit).matched = (free.run limit).matched
    ∧ ((free.within limit).ending ≠ .unfinished →
        ∀ n, limit < n → free.run n = free.within limit)
    ∧ (∀ larger, limit ≤ larger → (free.within limit).matched <+: (free.within larger).matched)
    ∧ ∀ (q q' : Query N) (n : Nat) (ending : Ending), q.next n = (.ended ending, q') →
        ending ≠ .unfinished → ∀ m call, q'.yieldAt (m + 1) call = .ended .exhausted := by
  intro free cut
  refine ⟨fun n hn call => ?_, matched_within free limit, fun h n hn => run_eq_within h hn,
    fun larger hl => matched_within_prefix free hl, ?_⟩
  · exact yieldAt_limitedTo (q := free) rfl (Nat.zero_add limit) hn call
  · intro q q' n ending h he m call
    exact yieldAt_of_isExhausted (isExhausted_of_next h he) m call

/-- A table with one node that is its own child. -/
def ownChild : NodeTable := ⟨#[⟨"a", none, [0], []⟩], false, false, true⟩

/-- On a tree without end, a limit of nine expansions leaves room for two matches, and two further
calls yield an error and then nothing. -/
theorem yieldAt_of_limit_ownChild :
    let path := Path.empty.step .descendant "a"
    let cut := Query.start ownChild.tree path 0 (some 9)
    (9 < 10 ∧ cut.yieldAt 10 2 = .ended (.failed (.stepLimitExceeded 9)))
    ∧ cut.yieldAt 10 3 = .ended .exhausted := by
  intro path cut
  have h := yieldAt_of_limit ownChild.tree path 0 9
  refine ⟨⟨by decide, ?_⟩, ?_⟩
  · rw [h.1 10 (by decide) 2]
    rfl
  · rw [h.1 10 (by decide) 3]
    rfl

end Query

namespace Document

/-- All matches under a limit are those within as many expansions as it allows. -/
theorem search_limited (path : Path) (v : Value) (limit : Nat) :
    search path v (some limit) = ⟨((query path v none).within limit).matched,
      ((query path v none).within limit).ending.cutAt limit⟩ := by
  have hended : ((query path v (some limit)).run (limit + 1)).ending ≠ .unfinished :=
    Query.ending_run_of_limit rfl (by omega) (Nat.zero_le limit)
  rw [search_eq_run hended]
  exact Query.run_limitedTo (q := query path v none) rfl (Nat.zero_add limit)
    (Nat.lt_succ_self limit)

end Document

end JsonAxes
