import JsonAxes.Descent.Unescape
import JsonAxes.Value.Reader

/-!
# Reading values by descent

The reader as it calls itself for every container, with the number of open containers in a counter.
The counter goes up in front of the comparison with the limit, and down again where a container is
closed; where one is left with an error it stays as it is.

What is read comes with the state behind it and a bound on the tokens that are left (`Behind`). The
calls end because of these bounds: a call for what is inside of brackets or behind a mark has fewer
tokens left, and one that leaves the tokens alone is for a part of a value.
-/

set_option autoImplicit false

namespace JsonAxes.Descent

open Outcome

/-- What is left to read, and how many containers are open. -/
structure State where
  left : List Token
  depth : Nat

namespace State

/-- The next token. -/
def peek? (s : State) : Option Token := s.left.head?

/-- The kind of the next token. -/
def kind? (s : State) : Option Token.Kind := s.peek?.map (·.kind)

/-- Behind the next token. -/
def bump (s : State) : State := { s with left := s.left.tail }

/-- What stands next and where, for messages; `last` is where the tokens end. -/
def found (last : Nat) (s : State) : String × Span :=
  match s.peek? with
  | some t => (t.display, t.span)
  | none => ("end of input", .point last)

theorem length_bump (s : State) : s.bump.left.length = s.left.length - 1 := List.length_tail

theorem length_bump_le (s : State) : s.bump.left.length ≤ s.left.length := by
  rw [length_bump]
  exact Nat.sub_le _ _

theorem length_bump_lt {s : State} {t : Token} (h : s.peek? = some t) :
    s.bump.left.length < s.left.length := by
  have hpos : 0 < s.left.length := List.length_pos_of_mem (List.mem_of_mem_head? h)
  rw [length_bump]
  omega

theorem length_bump_lt_of_kind? {s : State} {kind : Token.Kind} (h : s.kind? = some kind) :
    s.bump.left.length < s.left.length := by
  obtain ⟨t, ht, -⟩ := Option.map_eq_some_iff.mp h
  exact length_bump_lt ht

end State

/-- Something that was read, and the state behind it, in which fewer than so many tokens are
left. -/
structure Behind (α : Type) (most : Nat) where
  result : α
  state : State
  lt : state.left.length < most

/-- The bound may be made larger. -/
def Behind.mono {α : Type} {m n : Nat} (h : m ≤ n) (r : Behind α m) : Behind α n :=
  ⟨r.result, r.state, Nat.lt_of_lt_of_le r.lt h⟩

/-- The error of finding something else than what was wanted. -/
def refuseFound {α : Type} (last : Nat) (wanted : String) (s : State) : Outcome α :=
  refuse (.expected wanted (s.found last).1 (s.found last).2)

/-- Takes a token of a kind. -/
def expect (last : Nat) (kind : Token.Kind) (s : State) : Outcome (Behind Token s.left.length) :=
  match h : s.peek? with
  | some t =>
    if t.kind = kind then pure ⟨t, s.bump, State.length_bump_lt h⟩
    else refuseFound last kind.description s
  | none => refuseFound last kind.description s

/-- Counts a container that a token opens. -/
def descend (limit : Nat) (t : Token) (depth : Nat) : Outcome Nat :=
  let depth := depth + 1
  if limit < depth then refuse (.nestingTooDeep limit t.span) else pure depth

/-- Counts a container that is closed. -/
def ascend (depth : Nat) : Outcome Nat := sub depth 1

/-- The text of a key, if one stands next. -/
def key? (s : State) : Outcome (Behind (Option String) (s.left.length + 1)) :=
  match s.peek? with
  | some t =>
    if t.kind = .string then do
      let text ← unescape t
      pure ⟨some text, s.bump, Nat.lt_succ_of_le s.length_bump_le⟩
    else pure ⟨none, s, Nat.lt_succ_self _⟩
  | none => pure ⟨none, s, Nat.lt_succ_self _⟩

section

variable (limit last : Nat)

mutual

/-- Reads a value. -/
def value (s : State) : Outcome (Behind Value (s.left.length + 1)) := do
  let ⟨v?, s, h⟩ ← value? s
  match v? with
  | some v => pure ⟨v, s, h⟩
  | none => refuse (.expectedValue (s.found last).1 (s.found last).2)
termination_by (s.left.length, 2)

/-- Reads a value if the next token begins one. -/
def value? (s : State) : Outcome (Behind (Option Value) (s.left.length + 1)) :=
  have hbump := Nat.lt_succ_of_le s.length_bump_le
  match s.peek? with
  | none => pure ⟨none, s, Nat.lt_succ_self _⟩
  | some t =>
    match t.kind with
    | .string => do
      let text ← unescape t
      pure ⟨some (.string text), s.bump, hbump⟩
    | .number => do
      let n ← ofRead (Reader.numberOf t)
      pure ⟨some (.number n), s.bump, hbump⟩
    | .bool => do
      let b ← ofRead (Reader.boolOf t)
      pure ⟨some (.bool b), s.bump, hbump⟩
    | .null => do
      ofRead (Reader.nullOf t)
      pure ⟨some .null, s.bump, hbump⟩
    | .objectOpen => do
      let ⟨v, s, h⟩ ← object s
      pure ⟨some v, s, h⟩
    | .arrayOpen => do
      let ⟨v, s, h⟩ ← array s
      pure ⟨some v, s, h⟩
    | _ => pure ⟨none, s, Nat.lt_succ_self _⟩
termination_by (s.left.length, 1)

/-- Reads an object. -/
def object (s : State) : Outcome (Behind Value (s.left.length + 1)) := do
  let ⟨t, s₁, h₁⟩ ← expect last .objectOpen s
  let depth ← descend limit t s₁.depth
  let ⟨all, s₂, h₂⟩ ← members true [] { s₁ with depth }
  let ⟨_, s₃, h₃⟩ ← expect last .objectClose s₂
  let depth ← ascend s₃.depth
  have hlt : s₃.left.length < s.left.length := Nat.lt_trans h₃ (Nat.lt_of_lt_of_le h₂ h₁)
  pure ⟨.object all, { s₃ with depth }, Nat.lt_succ_of_lt hlt⟩
termination_by (s.left.length, 0)

/-- Reads members behind those that were read, up to where no comma stands behind one. The first
may be missing. -/
def members (first : Bool) (before : Members Value) (s : State) :
    Outcome (Behind (Members Value) (s.left.length + 1)) := do
  let ⟨name?, s₁, h₁⟩ ← key? s
  match name? with
  | none => if first then pure ⟨before, s₁, h₁⟩ else refuseFound last "string key" s₁
  | some name => do
    let ⟨_, s₂, h₂⟩ ← expect last .colon s₁
    let ⟨v, s₃, h₃⟩ ← value s₂
    let all := before.set name v
    have hbump := s₃.length_bump_le
    if s₃.kind? = some .comma then do
      let r ← members false all s₃.bump
      pure (r.mono (by omega))
    else pure ⟨all, s₃, by omega⟩
termination_by (s.left.length, 0)

/-- Reads an array. -/
def array (s : State) : Outcome (Behind Value (s.left.length + 1)) := do
  let ⟨t, s₁, h₁⟩ ← expect last .arrayOpen s
  let depth ← descend limit t s₁.depth
  let ⟨first?, s₂, h₂⟩ ← value? { s₁ with depth }
  have hlt : s₂.left.length < s.left.length := Nat.lt_of_lt_of_le h₂ h₁
  let ⟨all, s₃, h₃⟩ ← match first? with
    | some v => elements [v] s₂
    | none => pure ⟨[], s₂, Nat.lt_succ_self _⟩
  let ⟨_, s₄, h₄⟩ ← expect last .arrayClose s₃
  let depth ← ascend s₄.depth
  have hlt : s₄.left.length < s.left.length := by omega
  pure ⟨.array all, { s₄ with depth }, Nat.lt_succ_of_lt hlt⟩
termination_by (s.left.length, 0)

/-- Reads elements behind those that were read, the latest first, as long as there are commas. -/
def elements (before : List Value) (s : State) :
    Outcome (Behind (List Value) (s.left.length + 1)) :=
  if h : s.kind? = some .comma then do
    have hbump := s.length_bump_lt_of_kind? h
    let ⟨v, s₁, h₁⟩ ← value s.bump
    let r ← elements (v :: before) s₁
    pure (r.mono (by omega))
  else pure ⟨before.reverse, s, Nat.lt_succ_self _⟩
termination_by (s.left.length, 0)

end

end

/-- Reads exactly one value from some tokens. -/
def parse (limit : Nat) (tokens : List Token) : Outcome Value := do
  let last := (tokens.getLast?.map (·.span.hi)).getD 0
  let ⟨v, s, _⟩ ← value limit last ⟨tokens, 0⟩
  match s.peek? with
  | none => pure v
  | some t => refuse (.expected "end of input" t.display t.span)

end JsonAxes.Descent
