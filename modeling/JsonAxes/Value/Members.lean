/-!
# Members

The members of an object in the order in which their keys first came: a key that is set again
keeps its place and takes the new value. `ofList` sets one member after another, so its result
has every key once.
-/

set_option autoImplicit false

namespace JsonAxes

universe u

/-- Members of an object, in order. -/
abbrev Members (α : Type u) := List (String × α)

namespace Members

variable {α : Type u}

/-- The value at a key. -/
def get? (key : String) : Members α → Option α
  | [] => none
  | (k, a) :: rest => if k = key then some a else get? key rest

/-- Sets the value at a key. -/
def set (key : String) (a : α) : Members α → Members α
  | [] => [(key, a)]
  | (k, b) :: rest => if k = key then (k, a) :: rest else (k, b) :: set key a rest

/-- Sets members one after another. -/
def setAll (members : Members α) (more : List (String × α)) : Members α :=
  more.foldl (fun ms (k, a) => ms.set k a) members

/-- The members that a list of pairs describes, a later one overriding an earlier one. -/
def ofList (pairs : List (String × α)) : Members α := setAll [] pairs

/-- The keys in order. -/
def keys (members : Members α) : List String := members.map Prod.fst

/-! ## Setting, seen through `get?` and `keys` -/

theorem get?_set (key key' : String) (a : α) (members : Members α) :
    get? key' (set key a members) = if key = key' then some a else get? key' members := by
  induction members with
  | nil => rfl
  | cons m rest ih =>
    obtain ⟨k, b⟩ := m
    unfold set
    by_cases h : k = key
    · subst h
      by_cases h' : k = key' <;> simp [get?, h']
    · simp only [h, if_false, get?]
      by_cases h' : k = key'
      · subst h'
        simp [Ne.symm h]
      · simp [h', ih]

theorem keys_set (key : String) (a : α) (members : Members α) :
    keys (set key a members)
      = if key ∈ keys members then keys members else keys members ++ [key] := by
  induction members with
  | nil => rfl
  | cons m rest ih =>
    obtain ⟨k, b⟩ := m
    simp only [keys] at ih
    unfold set
    by_cases h : k = key
    · simp [keys, h]
    · have h' : ¬ key = k := fun e => h e.symm
      simp only [h, if_false, keys, List.map_cons, List.mem_cons, h', false_or, ih]
      by_cases hk : key ∈ List.map Prod.fst rest <;> simp [hk]

theorem nodup_keys_set (key : String) (a : α) {members : Members α} (h : (keys members).Nodup) :
    (keys (set key a members)).Nodup := by
  rw [keys_set]
  split
  · exact h
  · next hk =>
    refine List.nodup_append.mpr ⟨h, by simp, ?_⟩
    intro x hx y hy hxy
    simp only [List.mem_singleton] at hy
    exact hk (hy ▸ hxy ▸ hx)

end Members

end JsonAxes
