import JsonAxes.Query.Run

/-!
# One expansion of a query

What `Query.advance` can do: nothing if nothing is left, fail if the limit leaves no room, and
otherwise what the expansion of its search does.
-/

set_option autoImplicit false

namespace JsonAxes

universe u

variable {N : Type u}

/-- An expansion within a frame goes on or fails. -/
theorem Frame.exists_expand_eq (T : Tree N) (names : NameTable) (f : Frame N) (mode : Mode)
    (item : Item N) (below : List (Frame N)) :
    (∃ s, f.expand T names mode item below = .moved s)
    ∨ ∃ axis, f.expand T names mode item below = .failed axis := by
  rw [expand]
  split
  · exact .inl ⟨_, rfl⟩
  · split
    · exact .inl ⟨_, rfl⟩
    · exact .inr ⟨_, rfl⟩

namespace Search

theorem next?_eq_none_iff (frames : List (Frame N)) :
    next? frames = none ↔ frames.all (·.tasks.isEmpty) = true := by
  induction frames with
  | nil => exact ⟨fun _ => rfl, fun _ => rfl⟩
  | cons f below ih =>
      rw [next?, List.all_cons, Bool.and_eq_true]
      cases hf : f.tasks with
      | nil => simpa using ih
      | cons task tasks => simp

/-- An expansion finds nothing to do when nothing is left. -/
theorem advance_eq_exhausted_iff (T : Tree N) (names : NameTable) (s : Search N) :
    s.advance T names = .exhausted ↔ s.isExhausted = true := by
  have hexpand : ∀ (f : Frame N) mode item below,
      f.expand T names mode item below ≠ .exhausted := by
    intro f mode item below h
    rcases f.exists_expand_eq T names mode item below with ⟨s, hs⟩ | ⟨axis, haxis⟩
    · cases h.symm.trans hs
    · cases h.symm.trans haxis
  obtain ⟨arrived?, frames⟩ := s
  rcases arrived? with _ | ⟨item, _ | ⟨step, after⟩⟩
  · rw [isExhausted, Option.isNone_none, Bool.true_and, ← next?_eq_none_iff]
    simp only [advance]
    split
    · next h => simp [h]
    · next mode item f below h => simpa [h] using hexpand f mode item below
    · next cursor f below h => simp [h]
  · simp [advance, isExhausted]
  · simpa [advance, isExhausted] using hexpand _ _ _ _

/-- What has arrived with no step left is a match, and the frames stay. -/
theorem advance_of_arrived (T : Tree N) (names : NameTable) {s : Search N} {item : Item N}
    (h : s.arrived? = some (item, [])) :
    s.advance T names = .matched item.place ⟨none, s.frames⟩ := by
  simp only [advance, h]

/-- A match is found only where a place has arrived and no step is left; behind it nothing has
arrived, and the frames are as before. -/
theorem exists_arrived_of_matched {T : Tree N} {names : NameTable} {s s' : Search N} {p : Place N}
    (h : s.advance T names = .matched p s') :
    ∃ item, s.arrived? = some (item, []) ∧ p = item.place ∧ s' = ⟨none, s.frames⟩ := by
  have hexpand : ∀ (f : Frame N) mode item below,
      f.expand T names mode item below ≠ .matched p s' := by
    intro f mode item below h
    rcases f.exists_expand_eq T names mode item below with ⟨s, hs⟩ | ⟨axis, haxis⟩
    · cases h.symm.trans hs
    · cases h.symm.trans haxis
  obtain ⟨arrived?, frames⟩ := s
  rcases arrived? with _ | ⟨item, _ | ⟨step, after⟩⟩
  · simp only [advance] at h
    split at h
    · cases h
    · exact absurd h (hexpand _ _ _ _)
    · cases h
  · cases h
    exact ⟨item, rfl, rfl, rfl⟩
  · exact absurd h (hexpand _ _ _ _)

end Search

namespace Query

/-- A query with nothing left to do is exhausted, whatever its limit. -/
theorem advance_of_isExhausted {q : Query N} (h : q.search.isExhausted = true) :
    q.advance = .exhausted := by
  rw [advance, if_pos h]

/-- A query that has something left to do and may do no more fails. -/
theorem advance_of_isSpent {q : Query N} (h : q.search.isExhausted = false)
    (hs : q.isSpent = true) :
    q.advance = .failed (.stepLimitExceeded (q.limit?.getD 0)) q.ended := by
  rw [advance, if_neg (by simp [h]), if_pos hs]

/-- A query that may go on performs an expansion of its search. -/
theorem advance_of_not_isSpent {q : Query N} (hs : q.isSpent = false) :
    q.advance = match q.search.advance q.tree q.names with
      | .exhausted => .exhausted
      | .moved s => .working { q with search := s, taken := q.taken + 1 }
      | .matched place s => .matched place { q with search := s, taken := q.taken + 1 }
      | .failed axis => .failed (.unsupportedAxis axis) q.ended := by
  cases hex : q.search.isExhausted with
  | true =>
      rw [advance_of_isExhausted hex,
        (Search.advance_eq_exhausted_iff q.tree q.names q.search).mpr hex]
  | false =>
      have hex' : ¬ q.search.isExhausted = true := by simp [hex]
      have hs' : ¬ q.isSpent = true := by simp [hs]
      exact (if_neg hex').trans ((if_neg hs').trans rfl)

theorem isSpent_of_unlimited {q : Query N} (h : q.limit? = none) : q.isSpent = false := by
  rw [isSpent, h]
  rfl

/-- Only a query with nothing left to do is exhausted. -/
theorem advance_eq_exhausted_iff (q : Query N) :
    q.advance = .exhausted ↔ q.search.isExhausted = true := by
  refine ⟨fun h => ?_, advance_of_isExhausted⟩
  cases hex : q.search.isExhausted with
  | true => rfl
  | false =>
      cases hs : q.isSpent with
      | true =>
          rw [advance_of_isSpent hex hs] at h
          cases h
      | false =>
          rw [advance_of_not_isSpent hs] at h
          split at h
          · next hadv =>
            rw [(Search.advance_eq_exhausted_iff q.tree q.names q.search).mp hadv] at hex
            cases hex
          · cases h
          · cases h
          · cases h

/-- A query that fails has nothing left to do behind that. -/
theorem isExhausted_of_failed {q q' : Query N} {e : QueryError} (h : q.advance = .failed e q') :
    q'.search.isExhausted = true := by
  cases hex : q.search.isExhausted with
  | true =>
      rw [advance_of_isExhausted hex] at h
      cases h
  | false =>
      cases hs : q.isSpent with
      | true =>
          rw [advance_of_isSpent hex hs] at h
          cases h
          rfl
      | false =>
          rw [advance_of_not_isSpent hs] at h
          split at h
          · cases h
          · cases h
          · cases h
          · cases h
            rfl

end Query

end JsonAxes
