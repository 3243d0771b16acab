import JsonAxes.Value.Reader

/-!
# The grammar of values

`Value.SpelledBy v ts` says that some tokens spell a value, where the members of an object are
listed as they come, a key that is repeated being listed again. The reader takes such tokens as
the value in which repeated keys are merged (`Value.merged`), or says that they nest too deep if
they do (`Reader.Reaches`, `ofTokens?_of_spelledBy`).
-/

set_option autoImplicit false

namespace JsonAxes

namespace Value

open Reader

/-! ## Tokens that spell a value -/

mutual

/-- Tokens that spell a value. -/
inductive SpelledBy : Value → List Token → Prop where
  | string {t : Token} {s : String} (hk : t.kind = .string) (h : stringOf t = .ok s) :
      SpelledBy (.string s) [t]
  | number {t : Token} {n : Number} (hk : t.kind = .number) (h : numberOf t = .ok n) :
      SpelledBy (.number n) [t]
  | bool {t : Token} {b : Bool} (hk : t.kind = .bool) (h : boolOf t = .ok b) :
      SpelledBy (.bool b) [t]
  | null {t : Token} (hk : t.kind = .null) (h : nullOf t = .ok ()) : SpelledBy .null [t]
  | emptyArray {a b : Token} (ha : a.kind = .arrayOpen) (hb : b.kind = .arrayClose) :
      SpelledBy (.array []) [a, b]
  | array {a b : Token} {v : Value} {vs : List Value} {ts us : List Token}
      (ha : a.kind = .arrayOpen) (hv : SpelledBy v ts) (hvs : ElementsSpelledBy vs us)
      (hb : b.kind = .arrayClose) : SpelledBy (.array (v :: vs)) (a :: (ts ++ (us ++ [b])))
  | emptyObject {a b : Token} (ha : a.kind = .objectOpen) (hb : b.kind = .objectClose) :
      SpelledBy (.object []) [a, b]
  | object {a b k d : Token} {key : String} {v : Value} {ms : List (String × Value)}
      {ts us : List Token} (ha : a.kind = .objectOpen) (hk : k.kind = .string)
      (hkey : stringOf k = .ok key) (hd : d.kind = .colon) (hv : SpelledBy v ts)
      (hms : MembersSpelledBy ms us) (hb : b.kind = .objectClose) :
      SpelledBy (.object ((key, v) :: ms)) (a :: k :: d :: (ts ++ (us ++ [b])))

/-- Tokens that spell the elements of an array behind the first. -/
inductive ElementsSpelledBy : List Value → List Token → Prop where
  | nil : ElementsSpelledBy [] []
  | cons {c : Token} {v : Value} {vs : List Value} {ts us : List Token} (hc : c.kind = .comma)
      (hv : SpelledBy v ts) (hvs : ElementsSpelledBy vs us) :
      ElementsSpelledBy (v :: vs) (c :: (ts ++ us))

/-- Tokens that spell the members of an object behind the first. -/
inductive MembersSpelledBy : List (String × Value) → List Token → Prop where
  | nil : MembersSpelledBy [] []
  | cons {c k d : Token} {key : String} {v : Value} {ms : List (String × Value)}
      {ts us : List Token} (hc : c.kind = .comma) (hk : k.kind = .string)
      (hkey : stringOf k = .ok key) (hd : d.kind = .colon) (hv : SpelledBy v ts)
      (hms : MembersSpelledBy ms us) :
      MembersSpelledBy ((key, v) :: ms) (c :: k :: d :: (ts ++ us))

end

/-! ## Nesting and repeated keys -/

mutual

/-- How many containers of a value are open at once at most. -/
def nesting : Value → Nat
  | .array vs => elementsNesting vs + 1
  | .object ms => membersNesting ms + 1
  | _ => 0

/-- The nesting of the deepest of some values. -/
def elementsNesting : List Value → Nat
  | [] => 0
  | v :: vs => max v.nesting (elementsNesting vs)

/-- The nesting of the deepest of some members. -/
def membersNesting : List (String × Value) → Nat
  | [] => 0
  | (_, v) :: ms => max v.nesting (membersNesting ms)

end

mutual

/-- A value with the members of every object merged: each key once, at its first place and with its
last value. -/
def merged : Value → Value
  | .array vs => .array (mergedElements vs)
  | .object ms => .ofMembers (mergedMembers ms)
  | v => v

/-- Values that are merged each for itself. -/
def mergedElements : List Value → List Value
  | [] => []
  | v :: vs => v.merged :: mergedElements vs

/-- Members whose values are merged. -/
def mergedMembers : List (String × Value) → List (String × Value)
  | [] => []
  | (key, v) :: ms => (key, v.merged) :: mergedMembers ms

end

end Value

/-! ## Reading -/

namespace Reader

/-- A reader takes some tokens and becomes another, if as many containers as they take may be open,
and otherwise fails for that reason. -/
def Reaches (limit depth : Nat) (r : Reader) (ts : List Token) (r' : Reader) : Prop :=
  if depth ≤ limit then r.run limit ts = .ok r'
  else ∃ span, r.run limit ts = .error (.nestingTooDeep limit span)

variable {limit depth depth' : Nat} {r r' r'' : Reader} {ts us : List Token} {t : Token}
  {outer : List OpenContainer}

theorem reaches_nil (h : depth ≤ limit) : Reaches limit depth r [] r := by
  rw [Reaches, if_pos h]
  rfl

theorem Reaches.append (h : Reaches limit depth r ts r') (h' : Reaches limit depth' r' us r'') :
    Reaches limit (max depth depth') r (ts ++ us) r'' := by
  -- the first part that nests too deep fails, whatever stands behind it
  by_cases hdepth : depth ≤ limit
  · rw [Reaches, if_pos hdepth] at h
    rw [Reaches, run_append, h]
    rw [Reaches] at h'
    by_cases hdepth' : depth' ≤ limit
    · rw [if_pos hdepth'] at h'
      rw [if_pos (Nat.max_le.mpr ⟨hdepth, hdepth'⟩)]
      exact h'
    · rw [if_neg hdepth'] at h'
      rw [if_neg fun hmax => hdepth' (Nat.max_le.mp hmax).2]
      exact h'
  · rw [Reaches, if_neg hdepth] at h
    obtain ⟨span, hspan⟩ := h
    rw [Reaches, run_append, hspan, if_neg fun hmax => hdepth (Nat.max_le.mp hmax).1]
    exact ⟨span, rfl⟩

/-- A token that is taken without opening a container. -/
theorem Reaches.step (hstep : r.step limit t = .ok r') (h : Reaches limit depth r' ts r'') :
    Reaches limit depth r (t :: ts) r'' := by
  rw [Reaches, run_cons, hstep]
  exact h

theorem reaches_of_step (h : depth ≤ limit) (hstep : r.step limit t = .ok r') :
    Reaches limit depth r [t] r' := .step hstep (reaches_nil h)

/-- A token that opens a container fails if there is no room for another. -/
theorem reaches_of_enter {inside : Reader} (h : r.step limit t = enter limit t outer inside)
    (hdepth : outer.length < depth)
    (hinside : outer.length < limit → Reaches limit depth inside ts r') :
    Reaches limit depth r (t :: ts) r' := by
  by_cases hroom : outer.length < limit
  · rw [enter, if_pos hroom] at h
    exact .step h (hinside hroom)
  · have hdeep : ¬ depth ≤ limit := by omega
    rw [enter, if_neg hroom] at h
    rw [Reaches, if_neg hdeep, run_cons, h]
    exact ⟨t.span, rfl⟩

/-- What begins a value begins the first element of an array. -/
theorem run_firstElement {v : Value} (h : v.SpelledBy ts) :
    (firstElement outer).run limit ts = (value (.array [] :: outer)).run limit ts := by
  have hcons : ∀ (t : Token) (us : List Token) (x : Except ReadError Reader),
      t.kind ≠ .arrayClose → beginValue? limit t (.array [] :: outer) = some x →
      (firstElement outer).run limit (t :: us)
        = (value (.array [] :: outer)).run limit (t :: us) := by
    intro t us x hkind hx
    simp only [run_cons, Reader.step, if_neg hkind, hx, Option.getD_some]
  cases h with
  | string hk h => exact hcons _ _ _ (by rw [hk]; decide) (by rw [beginValue?, hk])
  | number hk h => exact hcons _ _ _ (by rw [hk]; decide) (by rw [beginValue?, hk])
  | bool hk h => exact hcons _ _ _ (by rw [hk]; decide) (by rw [beginValue?, hk])
  | null hk h => exact hcons _ _ _ (by rw [hk]; decide) (by rw [beginValue?, hk])
  | emptyArray ha _ => exact hcons _ _ _ (by rw [ha]; decide) (by rw [beginValue?, ha])
  | array ha _ _ _ => exact hcons _ _ _ (by rw [ha]; decide) (by rw [beginValue?, ha])
  | emptyObject ha _ => exact hcons _ _ _ (by rw [ha]; decide) (by rw [beginValue?, ha])
  | object ha _ _ _ _ _ _ => exact hcons _ _ _ (by rw [ha]; decide) (by rw [beginValue?, ha])

theorem step_colon {members : Members Value} {key : String} (ht : t.kind = .colon) :
    (colon members key outer).step limit t = .ok (value (.object members key :: outer)) :=
  if_pos ht

theorem reaches_firstElement {v : Value} (hv : v.SpelledBy ts)
    (h : Reaches limit depth (value (.array [] :: outer)) ts r) :
    Reaches limit depth (firstElement outer) ts r := by
  rwa [Reaches, run_firstElement hv]

mutual

theorem reaches_value {v : Value} {ts : List Token} (h : v.SpelledBy ts)
    (outer : List OpenContainer) (hroom : outer.length ≤ limit) :
    Reaches limit (outer.length + v.nesting) (value outer) ts (complete v.merged outer) := by
  cases h with
  | string hk h =>
      exact reaches_of_step hroom (by simp only [Reader.step, beginValue?, hk, h]; rfl)
  | number hk h =>
      exact reaches_of_step hroom (by simp only [Reader.step, beginValue?, hk, h]; rfl)
  | bool hk h =>
      exact reaches_of_step hroom (by simp only [Reader.step, beginValue?, hk, h]; rfl)
  | null hk h =>
      exact reaches_of_step hroom (by simp only [Reader.step, beginValue?, hk, h]; rfl)
  | emptyArray ha hb =>
      refine reaches_of_enter (by simp only [Reader.step, beginValue?, ha]; rfl)
        (Nat.lt_succ_self _) fun hlt => reaches_of_step hlt ?_
      simp only [Reader.step, hb, if_true]
      rfl
  | @array a b v vs ts us ha hv hvs hb =>
      refine reaches_of_enter (by simp only [Reader.step, beginValue?, ha]; rfl)
        (by simp only [Value.nesting]; omega) fun hlt => ?_
      have hvalue := reaches_firstElement hv (reaches_value hv (.array [] :: outer) hlt)
      have helements := reaches_elements hvs [v.merged] outer hlt
      have hclose : Reaches limit (outer.length + 1)
          (afterElement ((Value.mergedElements vs).reverse ++ [v.merged]) outer) [b]
          (complete (Value.merged (.array (v :: vs))) outer) := by
        refine reaches_of_step hlt ?_
        simp [Reader.step, hb, Value.merged, Value.mergedElements]
      -- between the brackets one more container is open, and the deepest element decides
      have hdepth : outer.length + Value.nesting (.array (v :: vs))
          = max (outer.length + 1 + v.nesting)
            (max (outer.length + 1 + Value.elementsNesting vs) (outer.length + 1)) := by
        simp only [Value.nesting, Value.elementsNesting]
        omega
      rw [hdepth]
      exact hvalue.append (helements.append hclose)
  | emptyObject ha hb =>
      refine reaches_of_enter (by simp only [Reader.step, beginValue?, ha]; rfl)
        (Nat.lt_succ_self _) fun hlt => reaches_of_step hlt ?_
      simp only [Reader.step, hb]
      rfl
  | @object a b k d key v ms ts us ha hk hkey hd hv hms hb =>
      refine reaches_of_enter (by simp only [Reader.step, beginValue?, ha]; rfl)
        (by simp only [Value.nesting]; omega) fun hlt => ?_
      have hvalue := reaches_value hv (.object [] key :: outer) hlt
      have hmembers := reaches_members hms [(key, v.merged)] outer hlt
      have hclose : Reaches limit (outer.length + 1)
          (afterMember (Members.setAll [(key, v.merged)] (Value.mergedMembers ms)) outer) [b]
          (complete (Value.merged (.object ((key, v) :: ms))) outer) := by
        refine reaches_of_step hlt ?_
        simp only [Reader.step, hb]
        rfl
      have hdepth : outer.length + Value.nesting (.object ((key, v) :: ms))
          = max (outer.length + 1 + v.nesting)
            (max (outer.length + 1 + Value.membersNesting ms) (outer.length + 1)) := by
        simp only [Value.nesting, Value.membersNesting]
        omega
      rw [hdepth]
      have hstep : (firstKey outer).step limit k = .ok (colon [] key outer) := by
        simp only [Reader.step, hk, hkey]
        rfl
      exact .step hstep (.step (step_colon hd) (hvalue.append (hmembers.append hclose)))

theorem reaches_elements {vs : List Value} {ts : List Token} (h : Value.ElementsSpelledBy vs ts)
    (before : List Value) (outer : List OpenContainer) (hroom : outer.length < limit) :
    Reaches limit (outer.length + 1 + Value.elementsNesting vs) (afterElement before outer) ts
      (afterElement ((Value.mergedElements vs).reverse ++ before) outer) := by
  cases h with
  | nil => exact reaches_nil hroom
  | @cons c v vs ts us hc hv hvs =>
      have hvalue := reaches_value hv (.array before :: outer) hroom
      have hrest := reaches_elements hvs (v.merged :: before) outer hroom
      have hdepth : outer.length + 1 + Value.elementsNesting (v :: vs)
          = max (outer.length + 1 + v.nesting) (outer.length + 1 + Value.elementsNesting vs) := by
        simp only [Value.elementsNesting]
        omega
      rw [hdepth, Value.mergedElements, List.reverse_cons, List.append_assoc]
      exact .step (if_pos hc) (hvalue.append hrest)

theorem reaches_members {ms : List (String × Value)} {ts : List Token}
    (h : Value.MembersSpelledBy ms ts) (before : Members Value) (outer : List OpenContainer)
    (hroom : outer.length < limit) :
    Reaches limit (outer.length + 1 + Value.membersNesting ms) (afterMember before outer) ts
      (afterMember (Members.setAll before (Value.mergedMembers ms)) outer) := by
  cases h with
  | nil => exact reaches_nil hroom
  | @cons c k d key v ms ts us hc hk hkey hd hv hms =>
      have hvalue := reaches_value hv (.object before key :: outer) hroom
      have hrest := reaches_members hms (before.set key v.merged) outer hroom
      have hdepth : outer.length + 1 + Value.membersNesting ((key, v) :: ms)
          = max (outer.length + 1 + v.nesting) (outer.length + 1 + Value.membersNesting ms) := by
        simp only [Value.membersNesting]
        omega
      rw [hdepth]
      have hstep : (nextKey before outer).step limit k = .ok (colon before key outer) := by
        simp only [Reader.step, hk, hkey]
        rfl
      exact .step (if_pos hc) (.step hstep (.step (step_colon hd) (hvalue.append hrest)))

end

end Reader

namespace Value

open Reader

/-- Tokens that spell a value are read as that value, merged, or nest too deep. -/
theorem ofTokens?_of_spelledBy {v : Value} {ts : List Token} (h : v.SpelledBy ts) (limit : Nat) :
    (v.nesting ≤ limit → ofTokens? limit ts = .ok v.merged)
    ∧ (limit < v.nesting → ∃ span, ofTokens? limit ts = .error (.nestingTooDeep limit span)) := by
  have hreaches := reaches_value h [] (Nat.zero_le limit)
  rw [List.length_nil, Nat.zero_add, Reaches] at hreaches
  constructor
  · intro hle
    rw [if_pos hle] at hreaches
    rw [ofTokens?, start, hreaches]
    rfl
  · intro hlt
    rw [if_neg (Nat.not_le.mpr hlt)] at hreaches
    obtain ⟨span, hspan⟩ := hreaches
    rw [ofTokens?, start, hspan]
    exact ⟨span, rfl⟩

end Value

end JsonAxes
