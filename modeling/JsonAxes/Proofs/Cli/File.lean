import JsonAxes.Cli.Run

/-!
# What a run leaves of one file

A file fails before it is queried, and then nothing is printed of it, or it has a value and what is
left depends on that value alone (`Run.file_eq_value`, `Run.file_of_value?_eq_none`). The name of a
file is printed in front of the count of its matches and nowhere else (`Run.file_eq`), and where
matches are counted or gathered nothing is printed of a file that fails (`Run.stdout_of_failed`).
-/

set_option autoImplicit false

namespace JsonAxes.Cli

/-! ## Counting or gathering -/

theorem Run.exclusive_of_not_count (json : Bool) : ¬ (false = true ∧ json = true) :=
  fun h => Bool.false_ne_true h.1

theorem Run.exclusive_of_not_json (count : Bool) : ¬ (count = true ∧ false = true) :=
  fun h => Bool.false_ne_true h.2

/-! ## Reading -/

/-- The value in a file, if it can be read and its bytes spell one. -/
def Host.value? (host : Host) (nesting : Nat) (name : String) : Option Value :=
  match host.read name with
  | .error _ => none
  | .ok bytes => (Value.ofBytes? nesting bytes).toOption

theorem Host.exists_ofBytes?_of_value? {host : Host} {nesting : Nat} {name : String} {v : Value}
    (h : host.value? nesting name = some v) :
    ∃ bytes, host.read name = .ok bytes ∧ Value.ofBytes? nesting bytes = .ok v := by
  rw [value?] at h
  cases hbytes : host.read name with
  | error e =>
      rw [hbytes] at h
      cases h
  | ok bytes =>
      rw [hbytes] at h
      refine ⟨bytes, rfl, ?_⟩
      cases hread : Value.ofBytes? nesting bytes with
      | error e =>
          simp only [hread] at h
          cases h
      | ok w =>
          simp only [hread] at h
          cases h
          rfl

namespace Run

variable (r : Run) {host : Host} {name : String}

/-- What is left of a file that has a value depends on the value alone. -/
theorem file_eq_value {v : Value} (h : host.value? r.nesting name = some v) :
    r.file host name = r.value host name v := by
  obtain ⟨bytes, hbytes, hread⟩ := Host.exists_ofBytes?_of_value? h
  rw [file, hbytes]
  simp only [Value.ofBytes?] at hread ⊢
  cases htext : Canonical.ofBytes bytes with
  | error e =>
      rw [htext] at hread
      cases hread
  | ok text =>
      rw [htext] at hread
      simp only [Except.bind, canonical] at hread ⊢
      rw [hread]

/-- A file that has no value fails, nothing is printed of it, and only the depth to which it is read
matters to what else is left of it. -/
theorem file_of_value?_eq_none (h : host.value? r.nesting name = none) :
    (r.file host name).failed = true ∧ (r.file host name).stdout = ""
      ∧ ∀ r' : Run, r'.nesting = r.nesting → r'.file host name = r.file host name := by
  rw [Host.value?] at h
  simp only [file]
  cases hbytes : host.read name with
  | error e => exact ⟨rfl, rfl, fun _ _ => rfl⟩
  | ok bytes =>
      rw [hbytes] at h
      simp only [Value.ofBytes?] at h ⊢
      cases htext : Canonical.ofBytes bytes with
      | error e => exact ⟨rfl, rfl, fun _ _ => rfl⟩
      | ok text =>
          rw [htext] at h
          simp only [Except.bind, canonical] at h ⊢
          cases hread : Value.ofCanonical? r.nesting text with
          | error e =>
              refine ⟨rfl, rfl, fun r' hr' => ?_⟩
              rw [hr', hread]
          | ok w =>
              rw [hread] at h
              cases h

/-! ## Querying -/

section Value

variable {v : Value}

/-- What is left of a value that is queried to the end. -/
theorem value_of_exhausted
    (h : (Document.search r.path v r.stepLimit?).ending = .exhausted) :
    r.value host name v
      = ⟨r.output host name (Document.search r.path v r.stepLimit?).matched, [], none⟩ := by
  rw [value, Ending.error?_of_exhausted _ h]

/-- What is left of a value whose query fails. -/
theorem value_of_failed {e : QueryError}
    (h : (Document.search r.path v r.stepLimit?).ending = .failed e) :
    r.value host name v
      = ⟨r.matchLines (Document.search r.path v r.stepLimit?).matched, [],
        some ["failed to query `" ++ name ++ "`", e.message]⟩ := by
  rw [value, Ending.error?_of_failed _ h]

end Value

/-- What is left of a file that has a value whose query is over within a number of expansions. -/
theorem file_of_run (hvalue : (host.value? r.nesting name).isSome = true) {n : Nat}
    {answers : Answers Node} (hanswers : answers = (Document.query r.path
      ((host.value? r.nesting name).getD .null) r.stepLimit?).run n)
    (hending : answers.ending = .exhausted) :
    r.file host name = ⟨r.output host name answers.matched, [], none⟩ := by
  obtain ⟨v, hv⟩ := Option.isSome_iff_exists.mp hvalue
  rw [hv, Option.getD_some] at hanswers
  have hsearch : Document.search r.path v r.stepLimit? = answers := by
    rw [hanswers]
    refine Document.search_eq_run fun hunfinished => ?_
    rw [← hanswers, hending] at hunfinished
    cases hunfinished
  rw [r.file_eq_value hv, r.value_of_exhausted (by rw [hsearch, hending]), hsearch]

end Run

/-! ## Names at counts -/

/-- What comes of a file with some text in front of what is printed, unless the file failed. -/
def FileOutcome.behind (o : FileOutcome) (lead : String) : FileOutcome :=
  if o.failed then o else { o with stdout := lead ++ o.stdout }

@[simp] theorem FileOutcome.failed_behind (o : FileOutcome) (lead : String) :
    (o.behind lead).failed = o.failed := by
  rw [behind]
  split <;> rfl

theorem FileOutcome.stdout_behind (o : FileOutcome) (lead : String) :
    (o.behind lead).stdout = (if o.failed then "" else lead) ++ o.stdout := by
  rw [behind]
  split <;> simp

theorem FileOutcome.messages_behind (o : FileOutcome) (lead : String) :
    (o.behind lead).messages = o.messages := by
  rw [behind]
  split <;> rfl

namespace Run

variable (r : Run)

/-- What stands in front of the count of a file's matches. -/
def lead (name : String) : String := if r.labelled && r.count then name ++ ": " else ""

/-- The same run without names at its counts. -/
def unlabelled : Run := { r with labelled := false }

theorem output_eq (host : Host) (name : String) (places : List (Place Node)) :
    r.output host name places = r.lead name ++ r.unlabelled.output host name places := by
  by_cases hcount : r.count = true
  · have hjson : r.json = false := Bool.eq_false_iff.mpr fun h => r.exclusive ⟨hcount, h⟩
    cases hlabelled : r.labelled <;>
      simp [output, lead, unlabelled, matchLines, matchCount, hlabelled, hcount, hjson,
        String.append_assoc]
  · have hcount' : ¬ r.unlabelled.count = true := hcount
    have hlead : r.lead name = "" := by simp [lead, hcount]
    rw [hlead, String.empty_append, output, output, if_neg hcount, if_neg hcount']
    rfl

theorem value_eq (host : Host) (name : String) (v : Value) :
    r.value host name v = (r.unlabelled.value host name v).behind (r.lead name) := by
  cases hending : (Document.search r.path v r.stepLimit?).ending with
  | exhausted =>
      rw [r.value_of_exhausted hending, r.unlabelled.value_of_exhausted hending, output_eq]
      rfl
  | failed e =>
      rw [r.value_of_failed hending, r.unlabelled.value_of_failed hending]
      rfl
  | unfinished => exact absurd hending (Document.ending_search r.path v r.stepLimit?)

/-- Without names at its counts a run leaves the same of a file, but for the name. -/
theorem file_eq (host : Host) (name : String) :
    r.file host name = (r.unlabelled.file host name).behind (r.lead name) := by
  cases hvalue : host.value? r.nesting name with
  | some v =>
      have hvalue' : host.value? r.unlabelled.nesting name = some v := hvalue
      rw [r.file_eq_value hvalue, r.unlabelled.file_eq_value hvalue', value_eq]
  | none =>
      obtain ⟨hfailed, -, hsame⟩ := r.file_of_value?_eq_none hvalue
      rw [hsame r.unlabelled rfl, FileOutcome.behind, if_pos hfailed]

/-! ## Failing -/

/-- Where matches are gathered or counted, nothing is printed of a file that fails. -/
theorem stdout_of_failed (hgather : (r.json || r.count) = true) {host : Host} {name : String}
    (hfailed : (r.file host name).failed = true) : (r.file host name).stdout = "" := by
  cases hvalue : host.value? r.nesting name with
  | none => exact (r.file_of_value?_eq_none hvalue).2.1
  | some v =>
      rw [r.file_eq_value hvalue] at hfailed ⊢
      cases hending : (Document.search r.path v r.stepLimit?).ending with
      | exhausted =>
          rw [r.value_of_exhausted hending] at hfailed
          cases hfailed
      | failed e =>
          rw [r.value_of_failed hending]
          exact if_pos hgather
      | unfinished => exact absurd hending (Document.ending_search r.path v r.stepLimit?)

end Run

end JsonAxes.Cli
