import JsonAxes.Proofs.Path.Spelling

/-!
# How names are numbered

However often names are entered into a table and looked up in between, the table lists the names in
the order in which they were entered first (`NameTable.names_after`). So a name's number is its
place in this order, and keeps it. The table of a path has been filled in this way with the names of
its steps and no others, whether the path was read or put together (`Path.names_ofSpelled`).

`NameTable.numbers_stable` puts this together.
-/

set_option autoImplicit false

namespace JsonAxes

namespace NameTable

/-! ## Calls -/

/-- A call on a name table. -/
inductive Call where
  /-- Enters a name and gives its number. -/
  | intern (name : String)
  /-- Gives the number of a name, if it has been entered. -/
  | lookup (name : String)

/-- The table behind a call. -/
def Call.table (t : NameTable) : Call → NameTable
  | intern name => (t.intern name).2
  | lookup _ => t

/-- The name that a call enters. -/
def Call.entered? : Call → Option String
  | intern name => some name
  | lookup _ => none

/-- The table behind calls on an empty one. -/
def after (calls : List Call) : NameTable := calls.foldl Call.table empty

/-- The names that calls enter, each as often as it is entered. -/
def entered (calls : List Call) : List String := calls.filterMap Call.entered?

theorem after_concat (calls : List Call) (call : Call) :
    after (calls ++ [call]) = call.table (after calls) := by
  rw [after, List.foldl_append]
  rfl

theorem entered_concat (calls : List Call) (call : Call) :
    entered (calls ++ [call]) = entered calls ++ call.entered?.toList := by
  rw [entered, List.filterMap_append]
  cases call <;> rfl

/-! ## The order of first use -/

/-- A further name is a new one only if it is not among those before. -/
theorem eraseDups_concat (names : List String) (name : String) :
    (names ++ [name]).eraseDups
      = if name ∈ names then names.eraseDups else names.eraseDups ++ [name] := by
  rw [List.eraseDups_append]
  by_cases h : name ∈ names
  · simp [h, List.removeAll]
  · simp [h, List.removeAll, List.eraseDups_cons]

/-- A table that lists names in the order of their first use does so with one more name entered. -/
theorem names_intern {t : NameTable} {used : List String} (h : t.names = used.eraseDups)
    (name : String) : (t.intern name).2.names = (used ++ [name]).eraseDups := by
  have hmem : name ∈ t.names ↔ name ∈ used := by rw [h, List.mem_eraseDups]
  rw [eraseDups_concat, intern]
  cases hlookup : t.lookup? name with
  | some id =>
      have hname : name ∈ t.names := List.mem_of_getElem? (resolve?_of_lookup? hlookup)
      rw [if_pos (hmem.mp hname)]
      exact h
  | none =>
      rw [if_neg (hmem.not.mp (lookup?_eq_none_iff.mp hlookup)), ← h]

/-- Behind any calls, the table lists the names in the order in which they were first entered. -/
theorem names_after (calls : List Call) : (after calls).names = (entered calls).eraseDups := by
  induction calls using List.reverseRecOn with
  | nil => rfl
  | append_singleton calls call ih =>
      rw [after_concat, entered_concat]
      cases call with
      | intern name => exact names_intern ih name
      | lookup name =>
          rw [Call.entered?, Option.toList_none, List.append_nil]
          exact ih

theorem nodup_after (calls : List Call) : (after calls).names.Nodup := by
  induction calls using List.reverseRecOn with
  | nil => exact List.nodup_nil
  | append_singleton calls call ih =>
      rw [after_concat]
      cases call with
      | intern name => exact nodup_intern ih
      | lookup name => exact ih

/-- What one call keeps, further calls keep: a number that has a name stays with it. -/
theorem resolve?_after_append {calls : List Call} {id : Nat} {name : String}
    (h : (after calls).resolve? id = some name) (later : List Call) :
    (after (calls ++ later)).resolve? id = some name := by
  induction later using List.reverseRecOn with
  | nil => rwa [List.append_nil]
  | append_singleton later call ih =>
      rw [← List.append_assoc, after_concat]
      cases call with
      | intern other => exact resolve?_intern_of_some ih
      | lookup other => exact ih

/-- In a table that calls have filled, numbers and names belong to each other. -/
theorem lookup?_after_eq_some_iff (calls : List Call) (name : String) (id : Nat) :
    (after calls).lookup? name = some id ↔ (after calls).resolve? id = some name :=
  ⟨resolve?_of_lookup?, lookup?_of_resolve? (nodup_after calls)⟩

theorem exists_lookup?_after_iff (calls : List Call) (name : String) :
    (∃ id, (after calls).lookup? name = some id) ↔ name ∈ entered calls := by
  rw [← Option.isSome_iff_exists, ← Option.ne_none_iff_isSome, Ne, lookup?_eq_none_iff, not_not,
    names_after, List.mem_eraseDups]

/-- A name that is new gets the next number. -/
theorem intern_fst_of_notMem {t : NameTable} {name : String} (h : name ∉ t.names) :
    (t.intern name).1 = t.size := by
  rw [intern, lookup?_eq_none_iff.mpr h]
  rfl

end NameTable

/-! ## The names of a path -/

/-- The number of the name that a test asks for. -/
def NodeTest.id? : NodeTest → Option Nat
  | name id => some id
  | _ => none

/-- The name that a test asks for. -/
def SpelledTest.name? : SpelledTest → Option String
  | name n => some n
  | _ => none

namespace Path

/-- The numbers of the names in the steps of a path, one step after another. -/
def ids (p : Path) : List Nat := p.steps.filterMap (·.test.id?)

/-- The names that steps spell, one step after another. -/
def usedNames (steps : List SpelledStep) : List String := steps.filterMap (·.test.name?)

/-- The table of a path lists the names of its steps in the order of their first use. -/
theorem names_ofSpelled (absolute : Bool) (ss : List SpelledStep) :
    (ofSpelled absolute ss).names.names = (usedNames ss).eraseDups := by
  induction ss using List.reverseRecOn with
  | nil => rfl
  | append_singleton ss s ih =>
      obtain ⟨axis, test, position?⟩ := s
      rw [ofSpelled_concat, usedNames, List.filterMap_append]
      cases test with
      | wildcard | node =>
          show (ofSpelled absolute ss).names.names = (usedNames ss ++ []).eraseDups
          rwa [List.append_nil]
      | name name => exact NameTable.names_intern ih name

/-- The numbers in the steps of a path resolve to the names that the steps spell. -/
theorem Resolves.map_ids {p : Path} (hp : p.Resolves) :
    p.ids.map p.names.resolve? = (usedNames p.spelled).map some := by
  rw [ids, usedNames, spelled, List.filterMap_map, List.map_filterMap, List.map_filterMap]
  refine List.filterMap_congr fun s hs => ?_
  obtain ⟨axis, test, position?⟩ := s
  cases test with
  | wildcard => rfl
  | node => rfl
  | name id =>
      obtain ⟨name, hname⟩ := hp _ hs id rfl
      simp only [Function.comp, NodeTest.id?, Step.spelled, NodeTest.spelled, SpelledTest.name?,
        Option.map_some, hname, Option.getD_some]

/-- However a path is made, its table lists the names of its steps. -/
theorem Made.exists_used {p : Path} (hp : p.Made) :
    ∃ used : List String,
      p.ids.map p.names.resolve? = used.map some ∧ p.names.names = used.eraseDups := by
  refine ⟨usedNames p.spelled, hp.isSpelled.resolves.map_ids, ?_⟩
  rw [← names_ofSpelled p.absolute, ← hp.isSpelled]

end Path

/-! ## Numbers are kept -/

/-- **Names are numbered once and for all.** Behind any calls that enter names and look them up,
the table lists the names in the order in which they were first entered. A name that is entered gets
the number that resolves to it, and the next one if it is new; a name has a number just if it has
been entered, numbers and names belong to each other, and later calls change neither. However a path
is made, the numbers in its steps resolve, and its table lists the names that they resolve to, in
the order of their first use. -/
theorem NameTable.numbers_stable (calls : List NameTable.Call) :
    (after calls).names = (entered calls).eraseDups
    ∧ (∀ name, ((after calls).intern name).2 = after (calls ++ [.intern name])
      ∧ (after (calls ++ [.intern name])).resolve? ((after calls).intern name).1 = some name
      ∧ (name ∉ entered calls → ((after calls).intern name).1 = (after calls).size))
    ∧ (∀ name, (∃ id, (after calls).lookup? name = some id) ↔ name ∈ entered calls)
    ∧ (∀ name id, (after calls).lookup? name = some id ↔ (after calls).resolve? id = some name)
    ∧ (∀ name id later, (after calls).lookup? name = some id →
      (after (calls ++ later)).lookup? name = some id)
    ∧ ∀ p : Path, p.Made → ∃ used : List String,
      p.ids.map p.names.resolve? = used.map some ∧ p.names.names = used.eraseDups := by
  refine ⟨names_after calls, fun name => ?_, exists_lookup?_after_iff calls,
    lookup?_after_eq_some_iff calls, ?_, fun p hp => hp.exists_used⟩
  · have htable : ((after calls).intern name).2 = after (calls ++ [.intern name]) :=
      (after_concat calls (.intern name)).symm
    have hresolve := resolve?_intern (after calls) name
    rw [htable] at hresolve
    refine ⟨htable, hresolve, fun hnew => intern_fst_of_notMem ?_⟩
    rwa [names_after, List.mem_eraseDups]
  · intro name id later h
    rw [lookup?_after_eq_some_iff] at h ⊢
    exact resolve?_after_append h later

/-- A path that is read with an abbreviated step in it, and then goes on with a name that it has. -/
def Path.extended : Path :=
  Path.nth (Path.step ⟨false, [⟨.child, .name 0, none⟩, ⟨.descendantOrSelf, .node, none⟩,
    ⟨.child, .name 1, none⟩], ⟨["b", "a"]⟩⟩ .parent "b") 2

theorem Path.made_extended : extended.Made := by
  have hread : ofText? "b//a" = .ok ⟨false, [⟨.child, .name 0, none⟩,
      ⟨.descendantOrSelf, .node, none⟩, ⟨.child, .name 1, none⟩], ⟨["b", "a"]⟩⟩ := by
    decide +kernel
  exact ((Made.ofText hread).step .parent "b").nth 2

theorem NameTable.numbers_stable_extended :
    (after [.intern "b", .lookup "c", .intern "a"]).lookup? "a" = some 1
    ∧ (after [.intern "b", .lookup "c", .intern "a", .intern "c", .intern "b"]).lookup? "a" = some 1
    ∧ Path.extended.Made ∧ ∃ used : List String,
      [0, 1, 0].map Path.extended.names.resolve? = used.map some ∧ ["b", "a"] = used.eraseDups := by
  have hlookup : (after [.intern "b", .lookup "c", .intern "a"]).lookup? "a" = some 1 := by decide
  obtain ⟨-, -, -, -, hlater, hpath⟩ := numbers_stable [.intern "b", .lookup "c", .intern "a"]
  exact ⟨hlookup, hlater "a" 1 [.intern "c", .intern "b"] hlookup, Path.made_extended,
    hpath Path.extended Path.made_extended⟩

end JsonAxes
