import JsonAxes.Proofs.Path.Acceptance
import JsonAxes.Proofs.Path.Written
import JsonAxes.Proofs.Query.Deep
import JsonAxes.Proofs.Value.Read

/-!
# Chains of names

The steps of a chain of names are all on the child axis, and each asks for a name. In whichever way
the names are written, the text of a chain is read as the chain (`Path.ofText?_chainText`).

An object has each of its keys once, so a name leads to the member at this key and to nothing else
(`Document.exists_named_of_get?`); it leads nowhere from an object without the key and from a
scalar. From step to step a chain of names therefore does what looking up its keys does
(`Document.finds_chain`). Arrays are left out: a name also leads to elements, by their kind.
-/

set_option autoImplicit false

namespace JsonAxes

universe u

/-! ## Looking up keys -/

namespace Value

/-- What is reached from a value by looking up one key after the other. -/
def follow? : List String → Value → Option Value
  | [], v => some v
  | key :: keys, v => (v.get? key).bind (follow? keys)

/-- Whether looking up keys comes to an object that has no member at the next key, or to a scalar
where there is a next key. -/
inductive BreaksOff : List String → Value → Prop where
  | missing {key : String} {ms : Members Value} (keys : List String) (h : key ∉ ms.keys) :
      BreaksOff (key :: keys) (.object ms)
  | scalar {v : Value} (key : String) (keys : List String) (h : v.isContainer = false) :
      BreaksOff (key :: keys) v
  | behind {key : String} {keys : List String} {v w : Value} (h : v.get? key = some w)
      (hw : BreaksOff keys w) : BreaksOff (key :: keys) v

end Value

/-- A member that is found at its key is the only one at the key. -/
theorem Members.exists_append_of_get? {α : Type u} {key : String} {a : α} {ms : Members α}
    (hnodup : ms.keys.Nodup) (h : get? key ms = some a) :
    ∃ front behind : Members α,
      ms = front ++ (key, a) :: behind ∧ key ∉ front.keys ∧ key ∉ behind.keys := by
  induction ms with
  | nil => cases h
  | cons m ms ih =>
      obtain ⟨k, b⟩ := m
      rw [keys, List.map_cons, List.nodup_cons] at hnodup
      rw [get?] at h
      split at h
      · next hk =>
        cases h
        subst hk
        exact ⟨[], ms, rfl, List.not_mem_nil, hnodup.1⟩
      · next hk =>
        obtain ⟨front, behind, rfl, hfront, hbehind⟩ := ih hnodup.2 h
        exact ⟨(k, b) :: front, behind, rfl,
          List.not_mem_cons_of_ne_of_not_mem (Ne.symm hk) hfront, hbehind⟩

/-! ## Children by name -/

namespace Place

variable {N : Type u} {T : Tree N} {name : String} {p : Place N}

/-- The children of a place that have a name. -/
def named (T : Tree N) (name : String) (p : Place N) : List (Place N) :=
  (p.childPlaces T).filter ((SpelledTest.name name).passes T)

theorem filter_mapIdx_eq_nil {nodes : List N} {f : Nat → N → Place N}
    (hf : ∀ i n, (f i n).node = n) (h : ∀ n ∈ nodes, T.tag n ≠ name) :
    (nodes.mapIdx f).filter ((SpelledTest.name name).passes T) = [] := by
  rw [List.filter_eq_nil_iff]
  intro q hq
  obtain ⟨i, hi, rfl⟩ := List.mem_mapIdx.mp hq
  rw [SpelledTest.passes, hf, beq_iff_eq]
  exact h _ (List.getElem_mem hi)

theorem named_eq_nil (h : ∀ n ∈ T.children p.node, T.tag n ≠ name) : p.named T name = [] :=
  filter_mapIdx_eq_nil (fun _ _ => rfl) h

theorem named_eq_singleton {front behind : List N} {n : N}
    (hchildren : T.children p.node = front ++ n :: behind) (hn : T.tag n = name)
    (hfront : ∀ m ∈ front, T.tag m ≠ name) (hbehind : ∀ m ∈ behind, T.tag m ≠ name) :
    p.named T name = [p.child (0 + front.length) n] := by
  have hpasses : (SpelledTest.name name).passes T (p.child (0 + front.length) n) = true :=
    beq_iff_eq.mpr hn
  rw [named, childPlaces, hchildren, List.mapIdx_append, List.mapIdx_cons, List.filter_append,
    filter_mapIdx_eq_nil (fun _ _ => rfl) hfront, List.filter_cons_of_pos hpasses,
    filter_mapIdx_eq_nil (fun _ _ => rfl) hbehind, List.nil_append]

/-- The keys on the way down to a place; elements of arrays have none. -/
def keys : Place Node → List (Option String)
  | .root _ => []
  | .within owner _ n => owner.keys ++ [n.key?]

end Place

namespace Path

variable {N : Type u} {T : Tree N}

/-- A step for each of some names, on the child axis. -/
def nameSteps (keys : List String) : List SpelledStep :=
  keys.map fun key => ⟨.child, .name key, none⟩

/-- The path that asks for the children of a name, for the children of the next name of these, and
so on. -/
def chain (keys : List String) : Path := ofSpelled false (nameSteps keys)

theorem isSpelled_chain (keys : List String) : (chain keys).IsSpelled := isSpelled_ofSpelled _ _

theorem spelled_chain (keys : List String) : (chain keys).spelled = nameSteps keys :=
  spelled_ofSpelled _ _

theorem axis_of_mem_chain {keys : List String} {s : Step} (hs : s ∈ (chain keys).steps) :
    s.axis = .child := by
  have hmem : s.axis ∈ (chain keys).steps.map Step.axis := List.mem_map_of_mem hs
  rw [chain, map_axis_ofSpelled, nameSteps, List.map_map] at hmem
  obtain ⟨key, -, haxis⟩ := List.mem_map.mp hmem
  exact haxis.symm

theorem evalSteps_chain_nil (p : Place N) :
    evalSteps T (chain []).names (chain []).steps p = [p] := rfl

theorem evalSteps_chain_cons (key : String) (keys : List String) (p : Place N) :
    evalSteps T (chain (key :: keys)).names (chain (key :: keys)).steps p
      = (p.named T key).flatMap (evalSteps T (chain keys).names (chain keys).steps) := by
  have hjoin : chain (key :: keys) = (oneStep .child (.name key)).join (chain keys) := by
    rw [join, spelled_chain, oneStep, spelled_ofSpelled, absolute_ofSpelled]
    rfl
  rw [hjoin, evalSteps_join (isSpelled_oneStep _ _) (isSpelled_chain keys),
    evalSteps_oneStep (by decide)]
  rfl

/-! ## Texts of chains -/

/-- The text of a chain, from what is written for each of its names. -/
def chainText (texts : List String) : String := "/".intercalate (texts.map ("child::" ++ ·))

theorem toList_chainText (text : String) (texts : List String) :
    (chainText (text :: texts)).toList = ("child::" ++ text).toList
      ++ texts.flatMap fun next => '/' :: ("child::" ++ next).toList := by
  rw [chainText, String.toList_intercalate, List.map_cons, List.map_cons]
  show ['/'].intercalate _ = _
  rw [Text.intercalate_cons, List.flatMap_map, List.flatMap_map]

/-- Whether each of some texts is written for the name in its place, without quotes or with quotes
of either kind. -/
def NamesSpelledBy : List String → List String → Prop :=
  List.Forall₂ fun key text => (Surface.Test.name key).SpelledBy text.toList

theorem spelledBy_childStep {key text : String}
    (h : (Surface.Test.name key).SpelledBy text.toList) :
    (Surface.written ⟨.child, .name key, none⟩).SpelledBy ("child::" ++ text).toList := by
  have hstep := Surface.WrittenStep.SpelledBy.along (Surface.isPlainName_axis .child) h .nil
  rw [List.append_nil] at hstep
  rwa [String.toList_append]

theorem moreSpelledBy_chain {keys texts : List String} (h : NamesSpelledBy keys texts) :
    Surface.MoreSpelledBy (Surface.writtenSteps (nameSteps keys))
      (texts.flatMap fun text => '/' :: ("child::" ++ text).toList) := by
  induction h with
  | nil => exact .nil
  | cons hfirst _ ih =>
      exact .cons (.mk Surface.isBlank_nil Surface.isBlank_nil) (spelledBy_childStep hfirst) ih

/-- The text of a chain is read as the chain, however its names are written. -/
theorem ofText?_chainText {keys texts : List String} (h : NamesSpelledBy keys texts) :
    ofText? (chainText texts) = .ok (chain keys) := by
  have hwritten :
      (Surface.writtenPath false (nameSteps keys)).SpelledBy (chainText texts).toList := by
    cases h with
    | nil => exact .bare (by decide) Surface.isBlank_nil .none Surface.isBlank_nil
    | @cons key text keys texts hfirst hrest =>
        have hsteps := Surface.Written.SpelledBy.steps Surface.isBlank_nil .none
          (spelledBy_childStep hfirst) (moreSpelledBy_chain hrest) Surface.isBlank_nil
        rw [List.append_nil] at hsteps
        rw [toList_chainText]
        exact hsteps
  have hread := ofText?_of_spelledBy hwritten (Surface.standFor_writtenPath _ _)
  rwa [String.ofList_toList, Surface.leading?_writtenPath] at hread

end Path

/-! ## Names in documents -/

namespace Document

variable {p : Place Node} {v w x : Value} {key : String} {keys : List String}

theorem children_of_value? (hp : p.node.value? = some v) :
    Node.tree.children p.node = Node.childrenOf v := by
  show p.node.children = _
  rw [Node.children, hp]
  rfl

/-- Members without a key are not called by it. -/
theorem tag_ne_of_notMem_keys {ms : Members Value} (h : key ∉ ms.keys) :
    ∀ n ∈ Node.childrenOf (.object ms), n.tag ≠ key := by
  intro n hn
  obtain ⟨m, hm, rfl⟩ := List.mem_map.mp hn
  rintro rfl
  exact h (List.mem_map_of_mem hm)

/-- The member at a key is the one child of this name. -/
theorem exists_named_of_get? (hkeys : v.hasDistinctKeys = true) (hp : p.node.value? = some v)
    (h : v.get? key = some w) :
    w.hasDistinctKeys = true
    ∧ ∃ i, p.named Node.tree key = [p.child i (.value (some key) w)] := by
  cases v with
  | object ms =>
      rw [Value.hasDistinctKeys, Bool.and_eq_true, decide_eq_true_iff] at hkeys
      obtain ⟨front, behind, rfl, hfront, hbehind⟩ := Members.exists_append_of_get? hkeys.1 h
      have hmember := Value.membersHaveDistinctKeys_iff.mp hkeys.2 (key, w)
        (List.mem_append_right front List.mem_cons_self)
      have hchildren : Node.tree.children p.node = Node.childrenOf (.object front)
          ++ .value (some key) w :: Node.childrenOf (.object behind) := by
        rw [children_of_value? hp]
        exact List.map_append
      exact ⟨hmember, _, Place.named_eq_singleton hchildren rfl (tag_ne_of_notMem_keys hfront)
        (tag_ne_of_notMem_keys hbehind)⟩
  | _ => cases h

/-- Keys that can be looked up lead to one place, which is the place at these keys. -/
theorem evalSteps_chain_of_follow? (hkeys : v.hasDistinctKeys = true)
    (hp : p.node.value? = some v) (h : v.follow? keys = some x) :
    ∃ q, Path.evalSteps Node.tree (Path.chain keys).names (Path.chain keys).steps p = [q]
      ∧ q.keys = p.keys ++ keys.map some ∧ q.node.value? = some x := by
  induction keys generalizing p v with
  | nil =>
      cases h
      exact ⟨p, Path.evalSteps_chain_nil p, (List.append_nil _).symm, hp⟩
  | cons key keys ih =>
      obtain ⟨w, hw, hrest⟩ := Option.bind_eq_some_iff.mp h
      obtain ⟨hdistinct, i, hnamed⟩ := exists_named_of_get? hkeys hp hw
      obtain ⟨q, hq, hqkeys, hx⟩ := ih (p := p.child i (.value (some key) w)) hdistinct rfl hrest
      refine ⟨q, ?_, ?_, hx⟩
      · rw [Path.evalSteps_chain_cons, hnamed, List.flatMap_singleton, hq]
      · rw [hqkeys, List.map_cons]
        exact List.append_assoc p.keys [some key] _

/-- Keys that break off lead nowhere. -/
theorem evalSteps_chain_of_breaksOff (hkeys : v.hasDistinctKeys = true)
    (hp : p.node.value? = some v) (h : v.BreaksOff keys) :
    Path.evalSteps Node.tree (Path.chain keys).names (Path.chain keys).steps p = [] := by
  induction h generalizing p with
  | missing keys h =>
      have hnone : p.named Node.tree _ = [] :=
        Place.named_eq_nil (children_of_value? hp ▸ tag_ne_of_notMem_keys h)
      rw [Path.evalSteps_chain_cons, hnone, List.flatMap_nil]
  | @scalar v key keys h =>
      have hchildren : Node.tree.children p.node = [] := by
        rw [children_of_value? hp]
        cases v with
        | object ms => cases h
        | array vs => cases h
        | _ => rfl
      have hnone : p.named Node.tree key = [] :=
        Place.named_eq_nil (hchildren ▸ List.forall_mem_nil _)
      rw [Path.evalSteps_chain_cons, hnone, List.flatMap_nil]
  | behind h hw ih =>
      obtain ⟨hdistinct, i, hnamed⟩ := exists_named_of_get? hkeys hp h
      rw [Path.evalSteps_chain_cons, hnamed, List.flatMap_singleton]
      exact ih hdistinct rfl

/-- **A chain of names is a chain of lookups.** Keys that have no two kinds of quotes in them can be
written as the names of a path, in quotes where they need them. However they are written, the text
of the child steps for them is read as a path that does what looking up the keys does: where this
comes to a value, the path finds the one place at these keys, which holds the value; where it breaks
off at an object without the next key or at a scalar, the path finds nothing. -/
theorem finds_chain (v : Value.Keyed) (keys : List String) :
    ((∀ key ∈ keys, IsQuotable key) →
      Path.NamesSpelledBy keys (keys.map fun key => String.ofList (Path.nameText key)))
    ∧ ∀ texts, Path.NamesSpelledBy keys texts → ∃ path,
      Path.ofText? (Path.chainText texts) = .ok path
      ∧ (∀ x, v.value.follow? keys = some x → ∃ place, Finds path v.value [place]
          ∧ place.keys = keys.map some ∧ place.node.value? = some x)
      ∧ (v.value.BreaksOff keys → Finds path v.value []) := by
  have hfinds := finds_evalSteps (Path.chain keys)
    (fun s hs haxis => by rw [Path.axis_of_mem_chain hs] at haxis; cases haxis) v.value
  refine ⟨fun hquotable => ?_, fun texts htexts =>
    ⟨Path.chain keys, Path.ofText?_chainText htexts, fun x hx => ?_, fun hbreaks => ?_⟩⟩
  · rw [Path.NamesSpelledBy, List.forall₂_map_right_iff, List.forall₂_same]
    intro key hkey
    rw [String.toList_ofList]
    exact Surface.spelledBy_nameText (hquotable key hkey)
  · obtain ⟨place, heval, hplace, hvalue⟩ :=
      evalSteps_chain_of_follow? (p := .root (.root v.value)) v.distinct rfl hx
    exact ⟨place, heval ▸ hfinds, hplace, hvalue⟩
  · rwa [evalSteps_chain_of_breaksOff v.distinct rfl hbreaks] at hfinds

/-- Keys of which most mean something else where they stand without quotes. -/
def hardKeys : List String := ["*", "node()", "", "number", "a\"b", "*", "é"]

/-- Objects with two members each, one within the other at these keys. -/
def underHardKeys : Value.Keyed where
  value := hardKeys.foldr (fun key v => .object [("x", .null), (key, v)]) (.number (.ofNat 7))
  distinct := by decide

theorem finds_chain_hardKeys :
    let written := fun keys : List String =>
      Path.chainText (keys.map fun key => String.ofList (Path.nameText key))
    ((∀ key ∈ hardKeys, IsQuotable key)
      ∧ written hardKeys = "child::\"*\"/child::\"node()\"/child::\"\"/child::number/"
        ++ "child::'a\"b'/child::\"*\"/child::é")
    ∧ (∃ path place, Path.ofText? (written hardKeys) = .ok path
        ∧ Finds path underHardKeys.value [place] ∧ place.keys = hardKeys.map some
        ∧ place.node.value? = some (.number (.ofNat 7)))
    ∧ ∀ keys ∈ [["*", "number"], ["x", "null"]], ∃ path, Path.ofText? (written keys) = .ok path
        ∧ Finds path underHardKeys.value [] := by
  intro written
  have hquotable : ∀ key ∈ hardKeys, IsQuotable key := by decide
  have hmissing : underHardKeys.value.BreaksOff ["*", "number"] :=
    .behind rfl (.missing [] (by decide))
  have hscalar : underHardKeys.value.BreaksOff ["x", "null"] := .behind rfl (.scalar "null" [] rfl)
  refine ⟨⟨hquotable, by decide +kernel⟩, ?_, fun keys hmem => ?_⟩
  · obtain ⟨hspelled, hread⟩ := finds_chain underHardKeys hardKeys
    obtain ⟨path, htext, hfound, -⟩ := hread _ (hspelled hquotable)
    obtain ⟨place, hplace⟩ := hfound _ rfl
    exact ⟨path, place, htext, hplace⟩
  · have hbroken : (∀ key ∈ keys, IsQuotable key) ∧ underHardKeys.value.BreaksOff keys := by
      rcases List.mem_pair.mp hmem with rfl | rfl
      · exact ⟨by decide, hmissing⟩
      · exact ⟨by decide, hscalar⟩
    obtain ⟨hspelled, hread⟩ := finds_chain underHardKeys keys
    obtain ⟨path, htext, -, hnone⟩ := hread _ (hspelled hbroken.1)
    exact ⟨path, htext, hnone hbroken.2⟩

end Document

end JsonAxes
