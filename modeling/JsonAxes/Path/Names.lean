/-!
# Name tables

The names that the steps of a path test for are kept once each. A name's number is its place in
the table, and adding names never moves those that are there.
-/

set_option autoImplicit false

namespace JsonAxes

/-- Distinct names in the order in which they were first used. -/
structure NameTable where
  names : List String
  deriving DecidableEq, Repr

namespace NameTable

/-- A table without names. -/
def empty : NameTable := ⟨[]⟩

/-- The number of a name in the table. -/
def lookup? (t : NameTable) (name : String) : Option Nat := t.names.findIdx? (· == name)

/-- The name of a number. -/
def resolve? (t : NameTable) (id : Nat) : Option String := t.names[id]?

/-- The number of a name and the table that has it, added at the end if it is new. -/
def intern (t : NameTable) (name : String) : Nat × NameTable :=
  match t.lookup? name with
  | some id => (id, t)
  | none => (t.names.length, ⟨t.names ++ [name]⟩)

/-- The number of names. -/
def size (t : NameTable) : Nat := t.names.length

/-- Whether two tables have the same names, in whatever order. -/
def sameNames (t u : NameTable) : Bool :=
  t.size == u.size && t.names.all fun n => u.names.contains n

/-! ## Looking up and resolving -/

theorem resolve?_of_lookup? {t : NameTable} {name : String} {id : Nat}
    (h : t.lookup? name = some id) : t.resolve? id = some name := by
  obtain ⟨hlt, heq, _⟩ := List.findIdx?_eq_some_iff_getElem.mp h
  simp only [resolve?, List.getElem?_eq_getElem hlt]
  exact congrArg some (by simpa using heq)

theorem lookup?_eq_none_iff {t : NameTable} {name : String} :
    t.lookup? name = none ↔ name ∉ t.names := by
  simp only [lookup?, List.findIdx?_eq_none_iff]
  constructor
  · intro h hm
    simpa using h name hm
  · intro h x hx
    have : x ≠ name := fun e => h (e ▸ hx)
    simpa using this

/-- The number that a name gets resolves to it. -/
theorem resolve?_intern (t : NameTable) (name : String) :
    (t.intern name).2.resolve? (t.intern name).1 = some name := by
  unfold intern
  split
  · next h => exact resolve?_of_lookup? h
  · simp [resolve?]

/-- Adding a name leaves the numbers of the others alone. -/
theorem resolve?_intern_of_some {t : NameTable} {name other : String} {id : Nat}
    (h : t.resolve? id = some other) : (t.intern name).2.resolve? id = some other := by
  unfold intern
  split
  · exact h
  · simp only [resolve?] at h ⊢
    have hlt : id < t.names.length := (List.getElem?_eq_some_iff.mp h).1
    rw [List.getElem?_append_left hlt]
    exact h

/-- No name is in the table twice. -/
theorem nodup_intern {t : NameTable} {name : String} (h : t.names.Nodup) :
    (t.intern name).2.names.Nodup := by
  unfold intern
  split
  · exact h
  · next hl =>
    have hm := lookup?_eq_none_iff.mp hl
    refine List.nodup_append.mpr ⟨h, by simp, ?_⟩
    intro a ha b hb hab
    simp only [List.mem_singleton] at hb
    exact hm (hb ▸ hab ▸ ha)

end NameTable

end JsonAxes
