import JsonAxes.Proofs.Value.Grammar

/-!
# Values with other numbers

What is written of a value is the value itself but for its numbers, some of which have no spelling,
or not one of their own. `Value.withNumbers` puts something in place of each number. If that is
never a container, values nest as deep as before (`Value.nesting_withNumbers`) and, where each
object has each key once, leave nothing to merge (`Value.merged_withNumbers`); and where it is the
same as the number it replaces, so is the whole as the value (`Value.same_withNumbers`).
-/

set_option autoImplicit false

namespace JsonAxes

/-! ## Objects with each key once -/

namespace Members

variable {α : Type}

/-- Setting a new key adds a member at the end. -/
theorem set_of_notMem {key : String} {a : α} {members : Members α} (h : key ∉ keys members) :
    set key a members = members ++ [(key, a)] := by
  induction members with
  | nil => rfl
  | cons m rest ih =>
      obtain ⟨k, b⟩ := m
      rw [keys, List.map_cons, List.mem_cons, not_or] at h
      rw [set, if_neg (Ne.symm h.1), ih h.2, List.cons_append]

theorem setAll_of_nodup {members more : Members α} (h : (keys (members ++ more)).Nodup) :
    setAll members more = members ++ more := by
  induction more generalizing members with
  | nil => exact (List.append_nil members).symm
  | cons m rest ih =>
      obtain ⟨key, a⟩ := m
      have hkey : key ∉ keys members := by
        intro hmem
        rw [keys, List.map_append, List.map_cons, List.nodup_append] at h
        exact h.2.2 key hmem key List.mem_cons_self rfl
      have happend : members ++ (key, a) :: rest = members ++ [(key, a)] ++ rest := by
        rw [List.append_assoc, List.singleton_append]
      rw [happend] at h ⊢
      rw [← ih h, ← set_of_notMem hkey]
      rfl

/-- Members that have each key once are what they describe. -/
theorem ofList_of_nodup {members : Members α} (h : (keys members).Nodup) :
    ofList members = members := setAll_of_nodup h

/-- Where each key comes once, every member is the one at its key. -/
theorem get?_of_mem {members : Members α} (h : (keys members).Nodup) {m : String × α}
    (hm : m ∈ members) : get? m.1 members = some m.2 := by
  induction members with
  | nil => exact absurd hm List.not_mem_nil
  | cons first rest ih =>
      obtain ⟨k, b⟩ := first
      rw [keys, List.map_cons, List.nodup_cons] at h
      rcases List.mem_cons.mp hm with rfl | hrest
      · rw [get?, if_pos rfl]
      · have hne : k ≠ m.1 := by
          rintro rfl
          exact h.1 (List.mem_map.mpr ⟨m, hrest, rfl⟩)
        rw [get?, if_neg hne, ih h.2 hrest]

end Members

namespace Value

mutual

/-- Whether each object in a value has each of its keys once. -/
def hasDistinctKeys : Value → Bool
  | .array vs => elementsHaveDistinctKeys vs
  | .object ms => decide (Members.keys ms).Nodup && membersHaveDistinctKeys ms
  | _ => true

def elementsHaveDistinctKeys : List Value → Bool
  | [] => true
  | v :: vs => v.hasDistinctKeys && elementsHaveDistinctKeys vs

def membersHaveDistinctKeys : List (String × Value) → Bool
  | [] => true
  | (_, v) :: ms => v.hasDistinctKeys && membersHaveDistinctKeys ms

end

/-- A value in which each object has each of its keys once. Such is every value that is read
(`Value.IsRead`), and every value that the program can hold. -/
structure Keyed where
  value : Value
  distinct : value.hasDistinctKeys = true

/-! ## Numbers of a value -/

mutual

/-- A value with something in place of each number. -/
def withNumbers (f : Number → Value) : Value → Value
  | .number n => f n
  | .array vs => .array (elementsWithNumbers f vs)
  | .object ms => .object (membersWithNumbers f ms)
  | v => v

def elementsWithNumbers (f : Number → Value) : List Value → List Value
  | [] => []
  | v :: vs => v.withNumbers f :: elementsWithNumbers f vs

def membersWithNumbers (f : Number → Value) : List (String × Value) → List (String × Value)
  | [] => []
  | (key, v) :: ms => (key, v.withNumbers f) :: membersWithNumbers f ms

end

mutual

/-- Whether something holds of all numbers of a value. -/
def AllNumbers (P : Number → Prop) : Value → Prop
  | .number n => P n
  | .array vs => ElementsAllNumbers P vs
  | .object ms => MembersAllNumbers P ms
  | _ => True

def ElementsAllNumbers (P : Number → Prop) : List Value → Prop
  | [] => True
  | v :: vs => v.AllNumbers P ∧ ElementsAllNumbers P vs

def MembersAllNumbers (P : Number → Prop) : List (String × Value) → Prop
  | [] => True
  | (_, v) :: ms => v.AllNumbers P ∧ MembersAllNumbers P ms

end

mutual

theorem AllNumbers.mono {P Q : Number → Prop} (hPQ : ∀ n, P n → Q n) {v : Value}
    (h : v.AllNumbers P) : v.AllNumbers Q := by
  cases v with
  | number n => exact hPQ n h
  | array vs => exact ElementsAllNumbers.mono hPQ h
  | object ms => exact MembersAllNumbers.mono hPQ h
  | _ => trivial

theorem ElementsAllNumbers.mono {P Q : Number → Prop} (hPQ : ∀ n, P n → Q n) {vs : List Value}
    (h : ElementsAllNumbers P vs) : ElementsAllNumbers Q vs := by
  cases vs with
  | nil => trivial
  | cons v vs => exact ⟨h.1.mono hPQ, ElementsAllNumbers.mono hPQ h.2⟩

theorem MembersAllNumbers.mono {P Q : Number → Prop} (hPQ : ∀ n, P n → Q n)
    {ms : List (String × Value)} (h : MembersAllNumbers P ms) : MembersAllNumbers Q ms := by
  cases ms with
  | nil => trivial
  | cons m ms => exact ⟨h.1.mono hPQ, MembersAllNumbers.mono hPQ h.2⟩

end

section Replacing

variable {f : Number → Value}

theorem keys_membersWithNumbers (ms : List (String × Value)) :
    Members.keys (membersWithNumbers f ms) = Members.keys ms := by
  induction ms with
  | nil => rfl
  | cons m ms ih => exact congrArg (m.1 :: ·) ih

theorem length_membersWithNumbers (ms : List (String × Value)) :
    (membersWithNumbers f ms).length = ms.length := by
  induction ms with
  | nil => rfl
  | cons m ms ih => exact congrArg (· + 1) ih

theorem nesting_of_not_isContainer {v : Value} (h : v.isContainer = false) : v.nesting = 0 := by
  cases v with
  | array vs => cases h
  | object ms => cases h
  | _ => rfl

theorem merged_of_not_isContainer {v : Value} (h : v.isContainer = false) : v.merged = v := by
  cases v with
  | array vs => cases h
  | object ms => cases h
  | _ => rfl

mutual

theorem nesting_withNumbers (hf : ∀ n, (f n).isContainer = false) (v : Value) :
    (v.withNumbers f).nesting = v.nesting := by
  cases v with
  | number n => exact nesting_of_not_isContainer (hf n)
  | array vs => rw [withNumbers, nesting, nesting, nesting_elementsWithNumbers hf vs]
  | object ms => rw [withNumbers, nesting, nesting, nesting_membersWithNumbers hf ms]
  | _ => rfl

theorem nesting_elementsWithNumbers (hf : ∀ n, (f n).isContainer = false) (vs : List Value) :
    elementsNesting (elementsWithNumbers f vs) = elementsNesting vs := by
  cases vs with
  | nil => rfl
  | cons v vs =>
      rw [elementsWithNumbers, elementsNesting, elementsNesting, nesting_withNumbers hf v,
        nesting_elementsWithNumbers hf vs]

theorem nesting_membersWithNumbers (hf : ∀ n, (f n).isContainer = false)
    (ms : List (String × Value)) :
    membersNesting (membersWithNumbers f ms) = membersNesting ms := by
  cases ms with
  | nil => rfl
  | cons m ms =>
      obtain ⟨key, v⟩ := m
      rw [membersWithNumbers, membersNesting, membersNesting, nesting_withNumbers hf v,
        nesting_membersWithNumbers hf ms]

end

mutual

/-- Where each object has each key once there is nothing to merge. -/
theorem merged_withNumbers (hf : ∀ n, (f n).isContainer = false) (v : Value)
    (h : v.hasDistinctKeys = true) : (v.withNumbers f).merged = v.withNumbers f := by
  cases v with
  | number n => exact merged_of_not_isContainer (hf n)
  | array vs =>
      rw [hasDistinctKeys] at h
      rw [withNumbers, merged, merged_elementsWithNumbers hf vs h]
  | object ms =>
      rw [hasDistinctKeys, Bool.and_eq_true, decide_eq_true_iff] at h
      rw [withNumbers, merged, merged_membersWithNumbers hf ms h.2, ofMembers,
        Members.ofList_of_nodup]
      rw [keys_membersWithNumbers]
      exact h.1
  | _ => rfl

theorem merged_elementsWithNumbers (hf : ∀ n, (f n).isContainer = false) (vs : List Value)
    (h : elementsHaveDistinctKeys vs = true) :
    mergedElements (elementsWithNumbers f vs) = elementsWithNumbers f vs := by
  cases vs with
  | nil => rfl
  | cons v vs =>
      rw [elementsHaveDistinctKeys, Bool.and_eq_true] at h
      rw [elementsWithNumbers, mergedElements, merged_withNumbers hf v h.1,
        merged_elementsWithNumbers hf vs h.2]

theorem merged_membersWithNumbers (hf : ∀ n, (f n).isContainer = false)
    (ms : List (String × Value)) (h : membersHaveDistinctKeys ms = true) :
    mergedMembers (membersWithNumbers f ms) = membersWithNumbers f ms := by
  cases ms with
  | nil => rfl
  | cons m ms =>
      obtain ⟨key, v⟩ := m
      rw [membersHaveDistinctKeys, Bool.and_eq_true] at h
      rw [membersWithNumbers, mergedMembers, merged_withNumbers hf v h.1,
        merged_membersWithNumbers hf ms h.2]

end

mutual

/-- A value is unchanged if each of its numbers is. -/
theorem withNumbers_eq_self (v : Value) (h : v.AllNumbers fun n => f n = .number n) :
    v.withNumbers f = v := by
  cases v with
  | number n => exact h
  | array vs => rw [withNumbers, elementsWithNumbers_eq_self vs h]
  | object ms => rw [withNumbers, membersWithNumbers_eq_self ms h]
  | _ => rfl

theorem elementsWithNumbers_eq_self (vs : List Value)
    (h : ElementsAllNumbers (fun n => f n = .number n) vs) : elementsWithNumbers f vs = vs := by
  cases vs with
  | nil => rfl
  | cons v vs =>
      rw [elementsWithNumbers, withNumbers_eq_self v h.1, elementsWithNumbers_eq_self vs h.2]

theorem membersWithNumbers_eq_self (ms : List (String × Value))
    (h : MembersAllNumbers (fun n => f n = .number n) ms) : membersWithNumbers f ms = ms := by
  cases ms with
  | nil => rfl
  | cons m ms =>
      obtain ⟨key, v⟩ := m
      rw [membersWithNumbers, withNumbers_eq_self v h.1, membersWithNumbers_eq_self ms h.2]

end

mutual

/-- A value is the same as before if what stands in place of each number is the same as that. -/
theorem same_withNumbers (v : Value) (hkeys : v.hasDistinctKeys = true)
    (h : v.AllNumbers fun n => (f n).same (.number n) = true) :
    (v.withNumbers f).same v = true := by
  cases v with
  | string s => exact beq_self_eq_true s
  | number n => exact h
  | bool b => exact beq_self_eq_true b
  | null => rfl
  | array vs =>
      rw [hasDistinctKeys] at hkeys
      exact sameElements_withNumbers vs hkeys h
  | object ms =>
      rw [hasDistinctKeys, Bool.and_eq_true, decide_eq_true_iff] at hkeys
      rw [withNumbers, same, length_membersWithNumbers, beq_self_eq_true, Bool.true_and]
      exact sameMembers_withNumbers ms (fun _ hm => Members.get?_of_mem hkeys.1 hm) hkeys.2 h

theorem sameElements_withNumbers (vs : List Value) (hkeys : elementsHaveDistinctKeys vs = true)
    (h : ElementsAllNumbers (fun n => (f n).same (.number n) = true) vs) :
    sameElements (elementsWithNumbers f vs) vs = true := by
  cases vs with
  | nil => rfl
  | cons v vs =>
      rw [elementsHaveDistinctKeys, Bool.and_eq_true] at hkeys
      rw [elementsWithNumbers, sameElements, same_withNumbers v hkeys.1 h.1,
        sameElements_withNumbers vs hkeys.2 h.2, Bool.true_and]

/-- Members are sought among others, each of which is the one at its key. -/
theorem sameMembers_withNumbers (ms : List (String × Value)) {ns : List (String × Value)}
    (hget : ∀ m ∈ ms, Members.get? m.1 ns = some m.2) (hkeys : membersHaveDistinctKeys ms = true)
    (h : MembersAllNumbers (fun n => (f n).same (.number n) = true) ms) :
    sameMembers (membersWithNumbers f ms) ns = true := by
  cases ms with
  | nil => rfl
  | cons m ms =>
      obtain ⟨key, v⟩ := m
      obtain ⟨hv, hms⟩ := List.forall_mem_cons.mp hget
      rw [membersHaveDistinctKeys, Bool.and_eq_true] at hkeys
      rw [membersWithNumbers, sameMembers, hv]
      simp only [same_withNumbers v hkeys.1 h.1, Bool.true_and]
      exact sameMembers_withNumbers ms hms hkeys.2 h.2

end

end Replacing

end Value

end JsonAxes
