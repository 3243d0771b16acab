import JsonAxes.Path.Reader
import JsonAxes.Query.Select
import Mathlib.Data.List.Induction
import Mathlib.Data.List.Nodup
import Mathlib.Data.List.Perm.Subperm

/-!
# What paths spell

The steps of a path test for names by their numbers in the path's own table. Spelled out, a step
says its axis, its test with the name itself, and its position (`Path.spelled`). However a path is
made (`Path.Made`), its table lists the names of its steps in the order of their first use, so
that the path is the one put together from what it spells (`Path.Made.isSpelled`): paths that
spell the same are the same.

`Path.same` compares the steps by number and the tables without regard to their order
(`Path.same_iff`). So it also holds of two paths one of which spells what the other does with the
names of its table exchanged among themselves.
-/

set_option autoImplicit false

namespace JsonAxes

/-- What a step asks of a node, with the name spelled out. -/
inductive SpelledTest where
  | wildcard
  | node
  | name (name : String)
  deriving DecidableEq

/-- A step with the name of its test spelled out. -/
structure SpelledStep where
  axis : Axis
  test : SpelledTest
  position? : Option Nat
  deriving DecidableEq

/-- A test spelled out with the names of a table. -/
def NodeTest.spelled (names : NameTable) : NodeTest → SpelledTest
  | .wildcard => .wildcard
  | .node => .node
  | .name id => .name ((names.resolve? id).getD "")

/-- A step spelled out with the names of a table. -/
def Step.spelled (names : NameTable) (s : Step) : SpelledStep :=
  ⟨s.axis, s.test.spelled names, s.position?⟩

namespace Path

/-- What the steps of a path spell. -/
def spelled (p : Path) : List SpelledStep := p.steps.map (Step.spelled p.names)

/-- A path with one more step, given by what it spells. -/
def append (p : Path) (s : SpelledStep) : Path :=
  match s.test with
  | .wildcard => p.push s.axis .wildcard s.position?
  | .node => p.push s.axis .node s.position?
  | .name name => p.pushName s.axis name s.position?

/-- The path with or without a leading separator and without steps. -/
def bare (absolute : Bool) : Path := ⟨absolute, [], .empty⟩

/-- The path put together from what its steps spell. -/
def ofSpelled (absolute : Bool) (steps : List SpelledStep) : Path :=
  steps.foldl append (bare absolute)

/-- The paths that can be made: read from texts, or put together step by step. -/
inductive Made : Path → Prop where
  | empty : Made .empty
  | ofText {text : String} {p : Path} (h : Path.ofText? text = .ok p) : Made p
  | step {p : Path} (hp : Made p) (axis : Axis) (test : String) : Made (p.step axis test)
  | nth {p : Path} (hp : Made p) (n : Nat) : Made (p.nth n)

/-! ## Appending a step -/

/-- Whether every name that a step tests for is in the table. -/
def Resolves (p : Path) : Prop :=
  ∀ s ∈ p.steps, ∀ id, s.test = .name id → ∃ name, p.names.resolve? id = some name

theorem steps_pushName (p : Path) (axis : Axis) (name : String) (position? : Option Nat) :
    (p.pushName axis name position?).steps
      = p.steps ++ [⟨axis, .name (p.names.intern name).1, position?⟩] := rfl

theorem names_pushName (p : Path) (axis : Axis) (name : String) (position? : Option Nat) :
    (p.pushName axis name position?).names = (p.names.intern name).2 := rfl

theorem absolute_append (p : Path) (s : SpelledStep) : (p.append s).absolute = p.absolute := by
  rw [append]
  split <;> rfl

/-- A step that is spelled with a table is spelled the same with a table that has one more name. -/
theorem spelled_intern {p : Path} (hp : p.Resolves) {s : Step} (hs : s ∈ p.steps) (name : String) :
    s.spelled (p.names.intern name).2 = s.spelled p.names := by
  obtain ⟨axis, test, position?⟩ := s
  cases test with
  | wildcard => rfl
  | node => rfl
  | name id =>
      obtain ⟨other, hother⟩ := hp _ hs id rfl
      simp only [Step.spelled, NodeTest.spelled, hother, NameTable.resolve?_intern_of_some hother]

/-- An appended step is spelled behind the others. -/
theorem spelled_append {p : Path} (hp : p.Resolves) (s : SpelledStep) :
    (p.append s).spelled = p.spelled ++ [s] := by
  obtain ⟨axis, test, position?⟩ := s
  cases test with
  | wildcard => simp [append, spelled, push, Step.spelled, NodeTest.spelled]
  | node => simp [append, spelled, push, Step.spelled, NodeTest.spelled]
  | name name =>
      simp only [append, spelled, steps_pushName, names_pushName, List.map_append,
        List.map_singleton]
      congr 1
      · exact List.map_congr_left fun s hs => spelled_intern hp hs name
      · simp only [Step.spelled, NodeTest.spelled, NameTable.resolve?_intern, Option.getD_some]

theorem resolves_push {p : Path} (hp : p.Resolves) (axis : Axis) {test : NodeTest}
    (htest : ∀ id, test ≠ .name id) (position? : Option Nat) :
    (p.push axis test position?).Resolves := by
  intro s hs id hid
  rcases List.mem_append.mp hs with hs | hs
  · exact hp s hs id hid
  · rw [List.mem_singleton.mp hs] at hid
    exact absurd hid (htest id)

theorem resolves_append {p : Path} (hp : p.Resolves) (s : SpelledStep) : (p.append s).Resolves := by
  obtain ⟨axis, test, position?⟩ := s
  cases test with
  | wildcard => exact resolves_push hp axis (by rintro id ⟨⟩) position?
  | node => exact resolves_push hp axis (by rintro id ⟨⟩) position?
  | name name =>
      intro s hs id hid
      simp only [append, steps_pushName, List.mem_append, List.mem_singleton] at hs
      simp only [append, names_pushName]
      rcases hs with hs | rfl
      · obtain ⟨other, hother⟩ := hp s hs id hid
        exact ⟨other, NameTable.resolve?_intern_of_some hother⟩
      · cases hid
        exact ⟨name, NameTable.resolve?_intern p.names name⟩

/-! ## Paths put together from what they spell -/

theorem ofSpelled_concat (absolute : Bool) (ss : List SpelledStep) (s : SpelledStep) :
    ofSpelled absolute (ss ++ [s]) = (ofSpelled absolute ss).append s := by
  simp only [ofSpelled, List.foldl_append, List.foldl_cons, List.foldl_nil]

theorem resolves_ofSpelled (absolute : Bool) (ss : List SpelledStep) :
    (ofSpelled absolute ss).Resolves := by
  induction ss using List.reverseRecOn with
  | nil => intro s hs; cases hs
  | append_singleton ss s ih =>
      rw [ofSpelled_concat]
      exact resolves_append ih s

theorem spelled_ofSpelled (absolute : Bool) (ss : List SpelledStep) :
    (ofSpelled absolute ss).spelled = ss := by
  induction ss using List.reverseRecOn with
  | nil => rfl
  | append_singleton ss s ih =>
      rw [ofSpelled_concat, spelled_append (resolves_ofSpelled absolute ss), ih]

theorem absolute_ofSpelled (absolute : Bool) (ss : List SpelledStep) :
    (ofSpelled absolute ss).absolute = absolute := by
  induction ss using List.reverseRecOn with
  | nil => rfl
  | append_singleton ss s ih => rw [ofSpelled_concat, absolute_append, ih]

/-- Whether a path is the one put together from what it spells. -/
def IsSpelled (p : Path) : Prop := p = ofSpelled p.absolute p.spelled

theorem isSpelled_ofSpelled (absolute : Bool) (ss : List SpelledStep) :
    (ofSpelled absolute ss).IsSpelled := by
  rw [IsSpelled, absolute_ofSpelled, spelled_ofSpelled]

theorem IsSpelled.append {p : Path} (hp : p.IsSpelled) (s : SpelledStep) :
    (p.append s).IsSpelled := by
  rw [hp, ← ofSpelled_concat]
  exact isSpelled_ofSpelled _ _

/-! ## All that are made -/

/-- The test that a text stands for. -/
def testOfText (text : String) : SpelledTest :=
  if text = "*" then .wildcard
  else if text = "node()" then .node
  else .name text

theorem step_eq_append (p : Path) (axis : Axis) (test : String) :
    p.step axis test = p.append ⟨axis, testOfText test, none⟩ := by
  rw [step, testOfText]
  split
  · rfl
  · split <;> rfl

/-- Giving the last step a position changes nothing but that position. -/
theorem nth_append (p : Path) (s : SpelledStep) (n : Nat) :
    (p.append s).nth n = p.append { s with position? := some n } := by
  obtain ⟨axis, test, position?⟩ := s
  cases test <;> simp [append, nth, push, pushName]

theorem IsSpelled.nth {p : Path} (hp : p.IsSpelled) (n : Nat) : (p.nth n).IsSpelled := by
  rw [hp]
  -- the position goes to the step that was appended last
  rcases p.spelled.eq_nil_or_concat with hnil | ⟨ss, s, hs⟩
  · rw [hnil]
    exact isSpelled_ofSpelled p.absolute []
  · rw [hs, List.concat_eq_append, ofSpelled_concat, nth_append]
    exact (isSpelled_ofSpelled p.absolute ss).append _

/-- Expanding a written step appends a step. -/
theorem exists_append_of_expandOnto {s : Surface.Step} {p q : Path} (h : s.expandOnto p = .ok q) :
    ∃ step, q = p.append step := by
  simp only [Surface.Step.expandOnto, bind, Except.bind] at h
  split at h
  · cases h
  · next axis _ =>
    split at h
    · cases h
    · split at h
      · cases h
      · next position? _ =>
        cases h
        cases s.test with
        | wildcard => exact ⟨⟨axis, .wildcard, position?⟩, rfl⟩
        | function name => exact ⟨⟨axis, .node, position?⟩, rfl⟩
        | name name => exact ⟨⟨axis, .name name, position?⟩, rfl⟩

theorem isSpelled_of_expandOnto {separator : Surface.Separator} {s : Surface.Step} {p q : Path}
    (hp : p.IsSpelled) (h : s.expandOnto (separator.expandOnto p) = .ok q) : q.IsSpelled := by
  obtain ⟨step, rfl⟩ := exists_append_of_expandOnto h
  cases separator with
  | child => exact hp.append step
  | deep => exact (hp.append ⟨.descendantOrSelf, .node, none⟩).append step

/-- What expanding a single written step keeps, expanding all of them keeps. -/
theorem of_foldlM_expandOnto {P : Path → Prop} {steps : List (Surface.Separator × Surface.Step)}
    {p q : Path}
    (keeps : ∀ s ∈ steps, ∀ p q, P p → s.2.expandOnto (s.1.expandOnto p) = .ok q → P q) (hp : P p)
    (h : steps.foldlM (fun p s => s.2.expandOnto (s.1.expandOnto p)) p = .ok q) : P q := by
  induction steps generalizing p with
  | nil =>
      cases h
      exact hp
  | cons s steps ih =>
      rw [List.foldlM_cons] at h
      cases hs : s.2.expandOnto (s.1.expandOnto p) with
      | error e => simp [hs, bind, Except.bind] at h
      | ok p' =>
          have hp' := keeps s List.mem_cons_self p p' hp hs
          exact ih (fun t ht => keeps t (List.mem_cons_of_mem s ht)) hp'
            (by simpa [hs, bind, Except.bind] using h)

theorem isSpelled_of_ofText? {text : String} {p : Path} (h : ofText? text = .ok p) :
    p.IsSpelled := by
  unfold ofText? at h
  split at h
  · cases h
  · next surface _ =>
    exact of_foldlM_expandOnto (fun _ _ _ _ => isSpelled_of_expandOnto)
      (isSpelled_ofSpelled surface.leading?.isSome []) h

/-- However a path is made, it is the one put together from what it spells. -/
theorem Made.isSpelled {p : Path} (hp : p.Made) : p.IsSpelled := by
  induction hp with
  | empty => exact isSpelled_ofSpelled false []
  | ofText h => exact isSpelled_of_ofText? h
  | step _ axis test ih =>
      rw [step_eq_append]
      exact ih.append _
  | nth _ n ih => exact ih.nth n

/-- Paths that spell the same are the same. -/
theorem Made.eq_iff {p q : Path} (hp : p.Made) (hq : q.Made) :
    p = q ↔ p.absolute = q.absolute ∧ p.spelled = q.spelled := by
  constructor
  · rintro rfl
    exact ⟨rfl, rfl⟩
  · rintro ⟨ha, hs⟩
    rw [hp.isSpelled, hq.isSpelled, ha, hs]

/-! ## Renaming -/

end Path

/-- A test with its name replaced. -/
def SpelledTest.rename (σ : String → String) : SpelledTest → SpelledTest
  | .wildcard => .wildcard
  | .node => .node
  | .name n => .name (σ n)

/-- A step with the name of its test replaced. -/
def SpelledStep.rename (σ : String → String) (s : SpelledStep) : SpelledStep :=
  { s with test := s.test.rename σ }

/-- A table with its names replaced. -/
def NameTable.rename (σ : String → String) (t : NameTable) : NameTable := ⟨t.names.map σ⟩

namespace NameTable

theorem lookup?_rename {σ : String → String} {t : NameTable} {name : String}
    (hσ : ∀ other ∈ t.names, σ other = σ name → other = name) :
    (t.rename σ).lookup? (σ name) = t.lookup? name := by
  obtain ⟨names⟩ := t
  rw [lookup?, lookup?, rename, List.findIdx?_map]
  induction names with
  | nil => rfl
  | cons other names ih =>
      have h : σ other = σ name ↔ other = name := ⟨hσ other List.mem_cons_self, congrArg σ⟩
      rw [List.findIdx?_cons, List.findIdx?_cons, ih fun x hx => hσ x (List.mem_cons_of_mem _ hx)]
      simp only [Function.comp, beq_eq_decide, h]

/-- Adding a replaced name to a table of replaced names is replacing afterwards. -/
theorem intern_rename {σ : String → String} {t : NameTable} {name : String}
    (hσ : ∀ other ∈ t.names, σ other = σ name → other = name) :
    (t.rename σ).intern (σ name) = ((t.intern name).1, (t.intern name).2.rename σ) := by
  rw [intern, lookup?_rename hσ, intern]
  cases t.lookup? name with
  | some id => rfl
  | none => simp [rename]

/-- Adding names only ever extends the table. -/
theorem subset_intern (t : NameTable) (name : String) : t.names ⊆ (t.intern name).2.names := by
  rw [intern]
  split
  · exact fun _ h => h
  · exact fun _ h => List.mem_append_left _ h

theorem mem_or_eq_of_mem_intern {t : NameTable} {name other : String}
    (h : other ∈ (t.intern name).2.names) : other ∈ t.names ∨ other = name := by
  rw [intern] at h
  split at h
  · exact .inl h
  · rwa [List.mem_append, List.mem_singleton] at h

theorem mem_intern (t : NameTable) (name : String) : name ∈ (t.intern name).2.names :=
  List.mem_of_getElem? (resolve?_intern t name)

/-- In a table without repetitions, a number is found under its name. -/
theorem lookup?_of_resolve? {t : NameTable} (ht : t.names.Nodup) {name : String} {id : Nat}
    (h : t.resolve? id = some name) : t.lookup? name = some id := by
  cases hl : t.lookup? name with
  | none => exact absurd (List.mem_of_getElem? h) (lookup?_eq_none_iff.mp hl)
  | some other =>
      have hother := resolve?_of_lookup? hl
      have hlt := (List.getElem?_eq_some_iff.mp h).1
      rw [(List.getElem?_inj hlt ht).mp (h.trans hother.symm)]

/-- Tables without repetitions have the same names if one is a rearrangement of the other. -/
theorem sameNames_iff_perm {t u : NameTable} (ht : t.names.Nodup) :
    t.sameNames u = true ↔ t.names.Perm u.names := by
  rw [sameNames, Bool.and_eq_true, beq_iff_eq, List.all_eq_true]
  constructor
  · rintro ⟨hsize, hsub⟩
    have hsubset : t.names ⊆ u.names := fun name hname => by simpa using hsub name hname
    exact (ht.subperm hsubset).perm_of_length_le (Nat.le_of_eq hsize.symm)
  · intro hperm
    refine ⟨hperm.length_eq, ?_⟩
    intro name hname
    simpa using hperm.mem_iff.mp hname

end NameTable

namespace Path

theorem nodup_append {p : Path} (hp : p.names.names.Nodup) (s : SpelledStep) :
    (p.append s).names.names.Nodup := by
  rw [append]
  split
  · exact hp
  · exact hp
  · exact NameTable.nodup_intern hp

theorem nodup_ofSpelled (absolute : Bool) (ss : List SpelledStep) :
    (ofSpelled absolute ss).names.names.Nodup := by
  induction ss using List.reverseRecOn with
  | nil => exact List.nodup_nil
  | append_singleton ss s ih =>
      rw [ofSpelled_concat]
      exact nodup_append ih s

theorem subset_append (p : Path) (s : SpelledStep) : p.names.names ⊆ (p.append s).names.names := by
  rw [append]
  split
  · exact fun _ h => h
  · exact fun _ h => h
  · exact NameTable.subset_intern _ _

/-- A path with the names of its table replaced. Its steps stay as they are. -/
def rename (σ : String → String) (p : Path) : Path := { p with names := p.names.rename σ }

/-- Appending a replaced step to a path of replaced names is replacing afterwards. -/
theorem append_rename {σ : String → String} {p : Path} {s : SpelledStep}
    (hσ : ∀ a ∈ (p.append s).names.names, ∀ b ∈ (p.append s).names.names, σ a = σ b → a = b) :
    (p.rename σ).append (s.rename σ) = (p.append s).rename σ := by
  obtain ⟨axis, test, position?⟩ := s
  cases test with
  | wildcard => rfl
  | node => rfl
  | name name =>
      have hname : ∀ other ∈ p.names.names, σ other = σ name → other = name := fun other hother =>
        hσ other (subset_append p _ hother) name (NameTable.mem_intern p.names name)
      -- the name is new to both tables or to neither, so it gets the same number
      simp only [append, SpelledStep.rename, SpelledTest.rename, pushName, rename,
        NameTable.intern_rename hname]

/-- What is put together from replaced names is what is put together, with its names replaced. -/
theorem ofSpelled_rename {σ : String → String} {absolute : Bool} {ss : List SpelledStep}
    (hσ : ∀ a ∈ (ofSpelled absolute ss).names.names, ∀ b ∈ (ofSpelled absolute ss).names.names,
      σ a = σ b → a = b) :
    ofSpelled absolute (ss.map (SpelledStep.rename σ)) = (ofSpelled absolute ss).rename σ := by
  induction ss using List.reverseRecOn with
  | nil => rfl
  | append_singleton ss s ih =>
      -- different names stay different in the smaller table of the steps in front
      rw [ofSpelled_concat] at hσ ⊢
      have hsub := subset_append (ofSpelled absolute ss) s
      rw [List.map_append, List.map_singleton, ofSpelled_concat,
        ih fun a ha b hb => hσ a (hsub ha) b (hsub hb), append_rename hσ]

/-! ## Comparing -/

theorem same_iff {p q : Path} (hp : p.names.names.Nodup) :
    p.same q = true ↔ p.absolute = q.absolute ∧ p.steps = q.steps ∧
      p.names.names.Perm q.names.names := by
  rw [same, Bool.and_eq_true, Bool.and_eq_true, beq_iff_eq, beq_iff_eq,
    NameTable.sameNames_iff_perm hp, and_assoc]

theorem IsSpelled.nodup {p : Path} (hp : p.IsSpelled) : p.names.names.Nodup := by
  rw [hp]
  exact nodup_ofSpelled _ _

theorem IsSpelled.resolves {p : Path} (hp : p.IsSpelled) : p.Resolves := by
  rw [hp]
  exact resolves_ofSpelled _ _

/-- The exchange of names that takes one table to another, number by number. -/
def exchange (t u : NameTable) (name : String) : String :=
  ((t.lookup? name).bind u.resolve?).getD name

theorem exchange_eq {t u : NameTable} (ht : t.names.Nodup) {name other : String} {id : Nat}
    (hname : t.resolve? id = some name) (hother : u.resolve? id = some other) :
    exchange t u name = other := by
  rw [exchange, NameTable.lookup?_of_resolve? ht hname, Option.bind_some, hother, Option.getD_some]

theorem map_exchange {t u : NameTable} (ht : t.names.Nodup)
    (hlength : t.names.length = u.names.length) : t.names.map (exchange t u) = u.names := by
  apply List.ext_getElem
  · rw [List.length_map, hlength]
  · intro id hid hid'
    rw [List.length_map] at hid
    rw [List.getElem_map]
    exact exchange_eq ht (List.getElem?_eq_getElem hid) (List.getElem?_eq_getElem hid')

/-- The same steps, spelled with another table, are the steps with the names exchanged. -/
theorem spelled_eq_exchange {p q : Path} (hp : p.IsSpelled) (hsteps : p.steps = q.steps)
    (hlength : p.names.names.length = q.names.names.length) :
    q.spelled = p.spelled.map (SpelledStep.rename (exchange p.names q.names)) := by
  rw [spelled, spelled, ← hsteps, List.map_map]
  apply List.map_congr_left
  rintro ⟨axis, test, position?⟩ hs
  cases test with
  | wildcard => rfl
  | node => rfl
  | name id =>
      obtain ⟨name, hname⟩ := hp.resolves _ hs id rfl
      have hid : id < q.names.names.length := hlength ▸ (List.getElem?_eq_some_iff.mp hname).1
      have hother : q.names.resolve? id = some q.names.names[id] := List.getElem?_eq_getElem hid
      simp only [Step.spelled, NodeTest.spelled, Function.comp, SpelledStep.rename,
        SpelledTest.rename, hname, hother, Option.getD_some, exchange_eq hp.nodup hname hother]

/-- A replacement that rearranges a list without repetitions replaces different names by
different ones. -/
theorem injective_of_perm {σ : String → String} {names : List String} (hnodup : names.Nodup)
    (hperm : (names.map σ).Perm names) : ∀ a ∈ names, ∀ b ∈ names, σ a = σ b → a = b := by
  have hmap : (names.map σ).Nodup := hperm.nodup_iff.mpr hnodup
  intro a ha b hb hab
  exact List.inj_on_of_nodup_map hmap ha hb hab

/-- Paths compare equal if one spells what the other does with the names exchanged among
themselves. The paths are the same only if they spell the same, which is when the tables have
the names in the same order. -/
theorem same_iff_exchanged {p q : Path} (hp : p.Made) (hq : q.Made) :
    (p = q ↔ p.absolute = q.absolute ∧ p.spelled = q.spelled) ∧
    (p.same q = true ↔ p.absolute = q.absolute ∧
      ∃ σ : String → String, (p.names.names.map σ).Perm p.names.names ∧
        q.spelled = p.spelled.map (SpelledStep.rename σ)) ∧
    (p.same q = true → (p.spelled = q.spelled ↔ p.names = q.names)) := by
  have hnodup := hp.isSpelled.nodup
  refine ⟨hp.eq_iff hq, ?_, ?_⟩
  · rw [same_iff hnodup]
    constructor
    · rintro ⟨habsolute, hsteps, hperm⟩
      -- each name is exchanged for the one that has its number in the other table
      refine ⟨habsolute, exchange p.names q.names, ?_, ?_⟩
      · rw [map_exchange hnodup hperm.length_eq]
        exact hperm.symm
      · exact spelled_eq_exchange hp.isSpelled hsteps hperm.length_eq
    · rintro ⟨habsolute, σ, hperm, hspelled⟩
      -- both are put together from what they spell, so the other is this path with names replaced
      have hinjective := injective_of_perm hnodup hperm
      have hrename : q = p.rename σ := by
        rw [hp.isSpelled] at hinjective
        rw [hq.isSpelled, ← habsolute, hspelled, ofSpelled_rename hinjective, ← hp.isSpelled]
      rw [hrename]
      exact ⟨rfl, rfl, hperm.symm⟩
  · intro hsame
    obtain ⟨habsolute, hsteps, _⟩ := (same_iff hnodup).mp hsame
    constructor
    · intro hspelled
      rw [(hp.eq_iff hq).mpr ⟨habsolute, hspelled⟩]
    · intro hnames
      rw [spelled, spelled, hsteps, hnames]

/-- A child `a` of which a child `b` is taken. -/
def childOfA : Path := (Path.empty.step .child "a").step .child "b"

/-- A child `b` of which a child `a` is taken. -/
def childOfB : Path := (Path.empty.step .child "b").step .child "a"

theorem made_childOfA : childOfA.Made := (Made.empty.step .child "a").step .child "b"

theorem made_childOfB : childOfB.Made := (Made.empty.step .child "b").step .child "a"

theorem same_iff_exchanged_childOfA :
    (childOfA.Made ∧ childOfB.Made) ∧ childOfA ≠ childOfB ∧ childOfA.same childOfB = true := by
  have h := same_iff_exchanged made_childOfA made_childOfB
  refine ⟨⟨made_childOfA, made_childOfB⟩, ?_, ?_⟩
  · intro heq
    exact absurd (h.1.mp heq).2 (by decide)
  · refine h.2.1.mpr ⟨rfl, fun name => if name = "a" then "b" else "a", ?_, ?_⟩
    · exact List.Perm.swap "a" "b" []
    · decide

/-- Paths that compare equal need not spell the same. Nor need they be displayed the same or have
the same matches. -/
theorem same_childOfB_of_not_spelled :
    (childOfA.Made ∧ childOfB.Made) ∧ childOfA.same childOfB = true
    ∧ childOfA.spelled ≠ childOfB.spelled ∧ childOfA.display ≠ childOfB.display
    ∧ (let document := Value.object [("a", .object [("b", .null)])]
      (Document.select childOfA document).map List.length = .ok 1
        ∧ (Document.select childOfB document).map List.length = .ok 0) := by
  refine ⟨⟨made_childOfA, made_childOfB⟩, by decide, by decide, by decide, ?_, ?_⟩
  · rw [Document.select_of_run (n := 20) rfl]
    rfl
  · rw [Document.select_of_run (n := 20) rfl]
    rfl

end Path

end JsonAxes
