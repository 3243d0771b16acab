import JsonAxes.Outer.Host
import JsonAxes.Proofs.Cli.File
import JsonAxes.Proofs.Query.Matched
import JsonAxes.Proofs.Standard.Writing
import JsonAxes.Proofs.Value.Characters
import JsonAxes.Proofs.Value.RoundTrip

/-!
# Three ways to print matches

Matches are printed line by line, or counted, or gathered in an array, and two different writers are
at work. For all that the three show the same (`Run.file_shows_matches`): as many lines as are
counted and as the array has elements, and each element is read back as a value that is the same as
what its line is read back as, which is the value that was matched.

What is read back is the value itself because of where it comes from: all that is matched in a file
has finite numbers and each key once, and the sizes of containers are finite numbers as well.
-/

set_option autoImplicit false

namespace JsonAxes.Cli

/-! ## Ways to print -/

namespace Run

/-- The run with a line for each match. -/
def plain (r : Run) : Run :=
  { r with count := false, json := false, exclusive := exclusive_of_not_count false }

/-- The run with the number of matches. -/
def counting (r : Run) : Run :=
  { r with count := true, json := false, exclusive := exclusive_of_not_json true }

/-- The run with the matches in one array. -/
def gathering (r : Run) : Run :=
  { r with count := false, json := true, exclusive := exclusive_of_not_count true }

end Run

/-- Whether a text has one line for each of some places, from which the value of its node is read if
so many containers may be open. -/
def Lists (nesting : Nat) (text : String) (places : List (Place Node)) : Prop :=
  ∃ lines : List String, text = String.join (lines.map (· ++ "\n"))
    ∧ lines.Forall₂ (fun line p => '\n' ∉ line.toList
      ∧ ∀ limit, nesting ≤ limit → Value.ofText? limit line = .ok p.node.toValue) places

/-- Whether a text is read as an array with one element for each of some places, the same as the
value of its node, if more containers may be open than so many. -/
def Gathers (nesting : Nat) (text : String) (places : List (Place Node)) : Prop :=
  ∃ ws : List Value, (∀ limit, nesting < limit → Value.ofText? limit text = .ok (.array ws))
    ∧ ws.Forall₂ (fun w p => w.same p.node.toValue = true) places

section Printing

variable {nesting size : Nat} {places : List (Place Node)}

/-- A value like those that are read is read back from a line. -/
theorem ofText?_print_of_isRead {v : Value} (hv : v.IsRead nesting size) (l : Layout) {limit : Nat}
    (hlimit : nesting ≤ limit) : Value.ofText? limit (v.print l) = .ok v := by
  obtain ⟨ts, hspelled, hread⟩ := v.exists_ofText?_print l
  have htokens := (Value.ofTokens?_of_spelledBy hspelled limit).1
  rw [Value.nesting_printed, Value.merged_printed v hv.keys, Value.printed_eq_self hv.finite]
    at htokens
  rw [hread, htokens (Nat.le_trans hv.nesting_le hlimit)]

theorem lists_matchLines {r : Run} (hlines : r.layout.breaksLines = false)
    (hplaces : ∀ p ∈ places, p.node.toValue.IsRead nesting size) :
    Lists nesting (r.plain.matchLines places) places := by
  refine ⟨places.map fun p => p.node.toValue.print r.layout, ?_, ?_⟩
  · rw [List.map_map]
    rfl
  · refine List.forall₂_map_left_iff.mpr (List.forall₂_same.mpr fun p hp => ⟨?_, fun limit h => ?_⟩)
    · exact Value.newline_notMem_print hlines _
    · exact ofText?_print_of_isRead (hplaces p hp) r.layout h

open Exchange in
theorem gathers_matchArray {w : Writer (List Char)} (hw : w.WritesStandard)
    (hplaces : ∀ p ∈ places, p.node.toValue.IsRead nesting size) :
    Gathers nesting (Run.matchArray w places) places := by
  obtain ⟨vs, hvs⟩ : ∃ vs, vs = places.map fun p => p.node.toValue := ⟨_, rfl⟩
  have hread : ∀ v ∈ vs, v.IsRead nesting size := hvs ▸ List.forall_mem_map.mpr hplaces
  let whole : Value.Keyed :=
    ⟨.array vs, Value.elementsHaveDistinctKeys_iff.mpr fun v hv => (hread v hv).keys⟩
  refine ⟨vs.map Value.exchanged, fun limit hlimit => ?_, ?_⟩
  · have hblank : Standard.IsBlank ['\n'] := List.forall_mem_singleton.mpr (by decide)
    have hnesting : whole.value.nesting ≤ limit := by
      refine Nat.le_trans (Nat.succ_le_succ ?_) hlimit
      exact Value.elementsNesting_le_iff.mpr fun v hv => (hread v hv).nesting_le
    have htext : Run.matchArray w places
        = String.ofList (whole.value.writtenBy w ++ ['\n']) := by
      rw [String.ofList_append]
      exact congrArg (fun vs => String.ofList ((Value.array vs).writtenBy w) ++ "\n") hvs.symm
    rw [htext, hw.ofText?_writtenBy whole hblank hnesting, Value.exchanged_array]
  · rw [hvs, List.map_map]
    refine List.forall₂_map_left_iff.mpr (List.forall₂_same.mpr fun p hp => ?_)
    exact Value.same_exchanged (hplaces p hp).keys (hplaces p hp).finite

end Printing

/-! ## The same matches -/

/-- **Three ways to print the same matches.** Let arrays be written in the spellings of the
standard, let the layout break no lines, and let the file be shorter than 2 ^ 64 bytes, as all files
are. The three ways to print fail together. If the file is queried to the end, there is a line for
each match, the number of matches, and an array with an element for each match, and the element and
the line are read back as the same value, that of the match. If the query fails, there are lines for
the matches before that, and otherwise nothing; and nothing is printed at all of a file that cannot
be read. -/
theorem Run.file_shows_matches (r : Run) (hlines : r.layout.breaksLines = false) (host : Host)
    (hwriter : host.writer.WritesStandard) (name : String)
    (hlength : ∀ bytes, host.read name = .ok bytes → bytes.length < 2 ^ 64) :
    let plain := r.plain.file host name
    let counted := r.counting.file host name
    let gathered := r.gathering.file host name
    (counted.failed = plain.failed ∧ gathered.failed = plain.failed)
    ∧ (plain.failed = false → ∃ v, host.value? r.nesting name = some v
      ∧ (Document.search r.path v r.stepLimit?).ending = .exhausted
      ∧ let found := (Document.search r.path v r.stepLimit?).matched
        Lists r.nesting plain.stdout found
        ∧ counted.stdout = r.counting.lead name ++ toString found.length ++ "\n"
        ∧ Gathers r.nesting gathered.stdout found)
    ∧ (plain.failed = true → (counted.stdout = "" ∧ gathered.stdout = "")
      ∧ ((host.value? r.nesting name = none ∧ plain.stdout = "")
        ∨ ∃ v e, host.value? r.nesting name = some v
          ∧ (Document.search r.path v r.stepLimit?).ending = .failed e
          ∧ Lists r.nesting plain.stdout (Document.search r.path v r.stepLimit?).matched)) := by
  intro plain counted gathered
  cases hvalue : host.value? r.nesting name with
  | none =>
      obtain ⟨hplain, hstdout, -⟩ := r.plain.file_of_value?_eq_none hvalue
      obtain ⟨hcounted, hstdout', -⟩ := r.counting.file_of_value?_eq_none hvalue
      obtain ⟨hgathered, hstdout'', -⟩ := r.gathering.file_of_value?_eq_none hvalue
      refine ⟨⟨hcounted.trans hplain.symm, hgathered.trans hplain.symm⟩, fun hfailed => ?_,
        fun _ => ⟨⟨hstdout', hstdout''⟩, .inl ⟨rfl, hstdout⟩⟩⟩
      exact absurd (hplain.symm.trans hfailed) (by decide)
  | some v =>
      obtain ⟨bytes, hbytes, hread⟩ := Host.exists_ofBytes?_of_value? hvalue
      have hsize : 12 * bytes.length < 2 ^ 68 := by
        have hlt := hlength bytes hbytes
        omega
      have hfound : ∀ p ∈ (Document.search r.path v r.stepLimit?).matched,
          p.node.toValue.IsRead r.nesting (12 * bytes.length) :=
        Document.isRead_of_matched (Value.isRead_of_ofBytes? hread) hsize (by decide)
      have hplain : plain = r.plain.value host name v := r.plain.file_eq_value hvalue
      have hcounted : counted = r.counting.value host name v := r.counting.file_eq_value hvalue
      have hgathered : gathered = r.gathering.value host name v := r.gathering.file_eq_value hvalue
      cases hending : (Document.search r.path v r.stepLimit?).ending with
      | exhausted =>
          rw [r.plain.value_of_exhausted hending] at hplain
          rw [r.counting.value_of_exhausted hending] at hcounted
          rw [r.gathering.value_of_exhausted hending] at hgathered
          rw [hplain, hcounted, hgathered]
          refine ⟨⟨rfl, rfl⟩, fun _ => ⟨v, rfl, hending, ?_, ?_, ?_⟩,
            fun h => absurd h Bool.false_ne_true⟩
          · show Lists _ (r.plain.matchLines _ ++ "" ++ "") _
            rw [String.append_empty, String.append_empty]
            exact lists_matchLines hlines hfound
          · have hlead : r.counting.lead name = if r.labelled then name ++ ": " else "" := by
              simp [lead, counting]
            rw [hlead]
            exact String.empty_append
          · show Gathers _ ("" ++ matchArray host.writer _ ++ "") _
            rw [String.append_empty, String.empty_append]
            exact gathers_matchArray hwriter hfound
      | failed e =>
          rw [r.plain.value_of_failed hending] at hplain
          rw [r.counting.value_of_failed hending] at hcounted
          rw [r.gathering.value_of_failed hending] at hgathered
          rw [hplain, hcounted, hgathered]
          exact ⟨⟨rfl, rfl⟩, fun h => absurd h.symm Bool.false_ne_true,
            fun _ => ⟨⟨rfl, rfl⟩, .inr ⟨v, e, rfl, hending, lists_matchLines hlines hfound⟩⟩⟩
      | unfinished => exact absurd hending (Document.ending_search r.path v r.stepLimit?)

/-- A file with numbers that the two writers spell differently. -/
def spelledTwice : Outer.Files := fun name =>
  if name = "a.json" then .ok "[-0, 1e20, [\"\\n\"]]".toUTF8.toList else .error .notFound

theorem Run.file_shows_matches_spelledTwice :
    let r : Run :=
      ⟨Path.empty.step .child "*", .compact, 2, none, false, false, false,
        exclusive_of_not_count false⟩
    let host := Outer.host spelledTwice
    (r.layout.breaksLines = false ∧ host.writer.WritesStandard
      ∧ ∀ bytes, host.read "a.json" = .ok bytes → bytes.length < 2 ^ 64)
    ∧ (∃ found, Lists 2 "-0\n100000000000000000000\n[\"\\n\"]\n" found
      ∧ Gathers 2 "[0,1e+20,[\"\\n\"]]\n" found)
    ∧ (r.counting.file host "a.json").stdout = "3\n" := by
  intro r host
  have hlines : r.layout.breaksLines = false := rfl
  have hwriter : host.writer.WritesStandard := Outer.writesStandard_writer
  have hlength : ∀ bytes, host.read "a.json" = .ok bytes → bytes.length < 2 ^ 64 := by
    intro bytes hbytes
    cases hbytes
    decide +kernel
  have hplain : r.plain.file host "a.json"
      = ⟨"-0\n100000000000000000000\n[\"\\n\"]\n", [], none⟩ := by
    rw [r.plain.file_of_run (by decide +kernel) (n := 20) rfl (by decide +kernel)]
    decide +kernel
  have hgathered : r.gathering.file host "a.json" = ⟨"[0,1e+20,[\"\\n\"]]\n", [], none⟩ := by
    rw [r.gathering.file_of_run (by decide +kernel) (n := 20) rfl (by decide +kernel)]
    decide +kernel
  have hcounted : r.counting.file host "a.json" = ⟨"3\n", [], none⟩ := by
    rw [r.counting.file_of_run (by decide +kernel) (n := 20) rfl (by decide +kernel)]
    decide +kernel
  obtain ⟨-, hshown, -⟩ := r.file_shows_matches hlines host hwriter "a.json" hlength
  obtain ⟨v, -, -, hlists, -, hgathers⟩ := hshown (by rw [hplain]; rfl)
  rw [hplain] at hlists
  rw [hgathered] at hgathers
  rw [hcounted]
  exact ⟨⟨hlines, hwriter, hlength⟩, ⟨_, hlists, hgathers⟩, rfl⟩

end JsonAxes.Cli
