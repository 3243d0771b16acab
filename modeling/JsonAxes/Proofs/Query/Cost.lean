import JsonAxes.Proofs.Query.Evaluation
import JsonAxes.Proofs.Query.Limit
import JsonAxes.Proofs.Query.Spelled
import JsonAxes.Proofs.Tree.Preorder

/-!
# What a descendant search costs

A search for all descendants that pass a test performs a number of expansions that does not depend
on the shape of the tree: four for each node below the start, one for the start, and one for each
match (`Search.endsIn_start`). Below the start, a node is split up, tested, asked for its children
and left behind again by the cursor that came upon it. Tasks are added up as lists of them are put
together (`Search.Costs`); the induction is on the way down.

The last of these expansions is no match, so a limit that lacks a single one lets the query find all
matches before it fails (`Document.search_descendant`).
-/

set_option autoImplicit false

namespace JsonAxes

universe u

variable {N : Type u} {T : Tree N} {names : NameTable}

/-! ## Searches that end after so many expansions -/

namespace Search

/-- Whether a search comes to its end after exactly so many expansions, the last of which is no
match, having found some places. -/
inductive EndsIn (T : Tree N) (names : NameTable) : Search N → Nat → List (Place N) → Prop where
  | exhausted {s : Search N} (h : s.advance T names = .exhausted) : EndsIn T names s 0 []
  | moved {s s' : Search N} {n : Nat} {ps : List (Place N)} (h : s.advance T names = .moved s')
      (hs : EndsIn T names s' n ps) : EndsIn T names s (n + 1) ps
  | matched {s s' : Search N} {p : Place N} {n : Nat} {ps : List (Place N)}
      (h : s.advance T names = .matched p s') (hs : EndsIn T names s' (n + 1) ps) :
      EndsIn T names s (n + 2) (p :: ps)

theorem EndsIn.eq_nil {s : Search N} {ps : List (Place N)} (h : s.EndsIn T names 0 ps) :
    ps = [] := by
  cases h
  rfl

/-- A frame without tasks is left behind at no cost. -/
theorem endsIn_of_tasks_nil {f : Frame N} {below : List (Frame N)} {n : Nat}
    {ps : List (Place N)} (h : f.tasks = []) (hs : EndsIn T names ⟨none, below⟩ n ps) :
    EndsIn T names ⟨none, f :: below⟩ n ps := by
  cases hs with
  | exhausted hs => exact .exhausted ((advance_of_tasks_nil h below).trans hs)
  | moved hs hrest => exact .moved ((advance_of_tasks_nil h below).trans hs) hrest
  | matched hs hrest => exact .matched ((advance_of_tasks_nil h below).trans hs) hrest

end Search

namespace Query

/-- Before its first expansion, a query with something to do is unfinished. -/
theorem ending_within_zero {q : Query N} {a : Advance N}
    (h : q.search.advance q.tree q.names = a) (ha : a ≠ .exhausted) :
    (q.within 0).ending = .unfinished := by
  have hex : ¬ q.search.isExhausted = true := fun hex =>
    ha (h.symm.trans ((Search.advance_eq_exhausted_iff q.tree q.names q.search).mpr hex))
  exact if_neg hex

/-- What a query yields within its first expansions if its search ends after so many: all of it if
they are enough; otherwise something is left to do, but no match if one expansion is missing. -/
theorem within_of_endsIn {s : Search N} {n : Nat} {ps : List (Place N)}
    (h : s.EndsIn T names n ps) (taken m : Nat) :
    let q : Query N := ⟨T, names, s, taken, none⟩
    (n ≤ m → q.within m = ⟨ps, .exhausted⟩)
    ∧ (m < n → (q.within m).ending = .unfinished)
    ∧ (m + 1 = n → (q.within m).matched = ps) := by
  induction h generalizing taken m with
  | @exhausted s h =>
      intro q
      have hex : q.search.isExhausted = true :=
        (Search.advance_eq_exhausted_iff T names s).mp h
      refine ⟨fun _ => ?_, fun hm => absurd hm (Nat.not_lt_zero m), fun hm => by omega⟩
      cases m with
      | zero => rw [within, if_pos hex]
      | succ m => rw [within, advance_of_isExhausted hex]
  | @moved s s' n ps h hs ih =>
      intro q
      have hadvance : q.advance = .working ⟨T, names, s', taken + 1, none⟩ := by
        simp only [q, advance_of_not_isSpent, isSpent_of_unlimited, h]
      cases m with
      | zero =>
          refine ⟨fun hm => by omega, fun _ => ending_within_zero h (by simp), fun hm => ?_⟩
          obtain rfl : n = 0 := by omega
          exact hs.eq_nil.symm
      | succ m =>
          obtain ⟨hended, hleft, hmissing⟩ := ih (taken + 1) m
          rw [within, hadvance]
          exact ⟨fun hm => hended (by omega), fun hm => hleft (by omega),
            fun hm => hmissing (by omega)⟩
  | @matched s s' p n ps h hs ih =>
      intro q
      have hadvance : q.advance = .matched p ⟨T, names, s', taken + 1, none⟩ := by
        simp only [q, advance_of_not_isSpent, isSpent_of_unlimited, h]
      cases m with
      | zero =>
          exact ⟨fun hm => by omega, fun _ => ending_within_zero h (by simp), fun hm => by omega⟩
      | succ m =>
          obtain ⟨hended, hleft, hmissing⟩ := ih (taken + 1) m
          rw [within, hadvance]
          refine ⟨fun hm => ?_, fun hm => hleft (by omega), fun hm => ?_⟩
          · have hrest := hended (by omega)
            simp only [hrest]
          · exact congrArg (p :: ·) (hmissing (by omega))

end Query

/-! ## The cost of tasks -/

/-- Whether every candidate of a frame that passes the test is a match. -/
structure Frame.IsLast (f : Frame N) : Prop where
  after : f.after = []
  position : f.step.position? = none

/-- The candidates that pass the test of a frame. -/
def Frame.passing (T : Tree N) (names : NameTable) (f : Frame N) (candidates : List (Place N)) :
    List (Place N) := candidates.filter (f.step.test.passes T names)

namespace Search

/-- Whether some tasks of a last step are done in so many expansions besides one for every match,
and the matches are those of some candidates that pass. -/
def Costs (T : Tree N) (names : NameTable) (tasks : List (Task N)) (cost : Nat)
    (candidates : List (Place N)) : Prop :=
  ∀ (f : Frame N) (below : List (Frame N)) (n : Nat) (ps : List (Place N)), f.IsLast →
    EndsIn T names ⟨none, f.past T names candidates :: below⟩ n ps →
    EndsIn T names ⟨none, f.push tasks :: below⟩
      (cost + (f.passing T names candidates).length + n) (f.passing T names candidates ++ ps)

theorem costs_nil : Costs T names [] 0 [] := by
  intro f below n ps _ hs
  rw [Nat.zero_add, Frame.passing, List.filter_nil, List.length_nil, Nat.zero_add]
  exact hs

theorem Costs.append {ts us : List (Task N)} {m n : Nat} {cs ds : List (Place N)}
    (ht : Costs T names ts m cs) (hu : Costs T names us n ds) :
    Costs T names (ts ++ us) (m + n) (cs ++ ds) := by
  intro f below k ps hf hs
  rw [Frame.past_append] at hs
  have hrest := ht (f.push us) below _ _ ⟨hf.after, hf.position⟩
    (hu (f.past T names cs) below k ps ⟨hf.after, hf.position⟩ hs)
  have hpush : f.push (ts ++ us) = (f.push us).push ts := by
    simp only [Frame.push, List.append_assoc]
  have hpassing : f.passing T names (cs ++ ds)
      = f.passing T names cs ++ f.passing T names ds := List.filter_append _ _
  have hcost : m + n + (f.passing T names (cs ++ ds)).length + k
      = m + (f.passing T names cs).length + (n + (f.passing T names ds).length + k) := by
    rw [hpassing, List.length_append]
    omega
  rw [hpush, hcost, hpassing, List.append_assoc]
  exact hrest

/-- A task costs one expansion and what the tasks cost that it leads to. -/
theorem Costs.of_advance {t : Task N} {ts : List (Task N)} {n : Nat} {cs : List (Place N)}
    (h : ∀ (f : Frame N) (below : List (Frame N)),
      (⟨none, f.push [t] :: below⟩ : Search N).advance T names = .moved ⟨none, f.push ts :: below⟩)
    (ht : Costs T names ts n cs) : Costs T names [t] (n + 1) cs := by
  intro f below k ps hf hs
  rw [Nat.add_right_comm n 1, Nat.add_right_comm _ 1]
  exact .moved (h f below) (ht f below k ps hf hs)

theorem Costs.resume {mode : Mode} {item : Item N} {cursor : Cursor N} {n : Nat}
    {cs : List (Place N)} (h : Costs T names (cursor.tasks mode item) n cs) :
    Costs T names [.resume mode item cursor] (n + 1) cs :=
  .of_advance (fun f below => by simp only [advance, next?_push]) h

theorem Costs.expand {mode : Mode} {item : Item N} {ts : List (Task N)} {n : Nat}
    {cs : List (Place N)} (hm : mode ≠ .along .self)
    (ht : ∀ test, item.expansion T names test mode = .ok ts) (h : Costs T names ts n cs) :
    Costs T names [.expand mode item] (n + 1) cs :=
  .of_advance (fun f below => by simp only [advance, next?_push, Frame.expand, if_neg hm, ht]) h

/-- An item on the self axis costs one expansion. As its match is not the last expansion, there are
further tasks behind it. -/
theorem Costs.self {item : Item N} {us : List (Task N)} {n : Nat} {ds : List (Place N)}
    (hi : item.IsTruthful T names) (hu : Costs T names us (n + 1) ds) :
    Costs T names (.expand (.along .self) item :: us) (n + 2) (item.place :: ds) := by
  intro f below k ps hf hs
  obtain ⟨item', hcheck, hplace, -⟩ := hi.check f.step.test
  have hadvance : (⟨none, f.push (.expand (.along .self) item :: us) :: below⟩ : Search N).advance
      T names = .moved ((f.push us).test T names item below) := rfl
  have htest : (f.push us).step = f.step := rfl
  have hbehind : f.past T names (item.place :: ds)
      = (f.past T names [item.place]).past T names ds := Frame.past_append T names f [item.place] ds
  rw [hbehind] at hs
  have hrest := hu (f.past T names [item.place]) below k ps ⟨hf.after, hf.position⟩ hs
  by_cases hpass : f.step.test.passes T names item.place = true
  · -- what passes arrives behind the last step, and is a match
    have hpassing : f.passing T names (item.place :: ds)
        = item.place :: f.passing T names ds := List.filter_cons_of_pos hpass
    have harrived : (f.push us).test T names item below
        = ⟨some (item', []), (f.past T names [item.place]).push us :: below⟩ := by
      have hwanted : f.step.position?.all (· == f.passed + 1) = true := by rw [hf.position]; rfl
      simp only [Frame.test, htest, hcheck, hpass, if_true]
      simp [Frame.push, Frame.past, hwanted, hf.after, hpass]
    have hcost : n + 2 + (f.passing T names (item.place :: ds)).length + k
        = n + (f.passing T names ds).length + k + 2 + 1 := by
      rw [hpassing, List.length_cons]
      omega
    rw [Nat.add_right_comm n 1, Nat.add_right_comm _ 1] at hrest
    rw [hcost, hpassing, List.cons_append, ← hplace]
    exact .moved (hadvance.trans (congrArg _ harrived)) (.matched rfl hrest)
  · have hpassing : f.passing T names (item.place :: ds) = f.passing T names ds :=
      List.filter_cons_of_neg hpass
    have hpast : f.past T names [item.place] = f := by
      simp [Frame.past, hpass]
    have hrefused : (f.push us).test T names item below = ⟨none, f.push us :: below⟩ := by
      simp only [Frame.test, htest, hcheck, hpass]
      rfl
    rw [hpast] at hrest
    rw [hpassing, Nat.add_right_comm (n + 1) 1, Nat.add_right_comm _ 1]
    exact .moved (hadvance.trans (congrArg _ hrefused)) hrest

/-! ## The way down -/

/-- A cursor costs four expansions for each of the candidates that it leads to, if with the one by
which it is resumed behind a place that place costs as many. -/
theorem Costs.cursor {g : Place N → List (Place N)} {left : List N} {c : Cursor N} {mode : Mode}
    {item : Item N} (hleft : c.left = left)
    (h : ∀ p ∈ c.places, ∃ n, n + 1 = 4 * (g p).length
      ∧ Costs T names [.expand c.emit (.fresh p)] n (g p)) :
    Costs T names (c.tasks mode item) (4 * (c.places.flatMap g).length) (c.places.flatMap g) := by
  induction left generalizing c with
  | nil =>
      rw [Cursor.tasks_of_left_nil hleft, Cursor.places_of_left_nil hleft]
      exact costs_nil
  | cons child left ih =>
      obtain ⟨rest, -, hbehind, htasks⟩ := Cursor.exists_of_left_cons hleft mode item
      rw [← hbehind] at hleft
      rw [Cursor.places_of_left_cons hleft] at h ⊢
      obtain ⟨n, hn, hchild⟩ := h _ List.mem_cons_self
      have hothers := Costs.resume (ih hbehind fun p hp => h p (List.mem_cons_of_mem _ hp))
      rw [htasks, List.flatMap_cons, List.length_append, Nat.mul_add, ← hn, Nat.add_assoc,
        Nat.add_comm 1]
      exact hchild.append hothers

/-- The children of a place, each with everything below it, cost four expansions for each of the
places below. -/
theorem costs_children_deep {p : Place N} (hends : T.EndsBelow p.node) {mode : Mode}
    {item : Item N} :
    Costs T names ((Cursor.children T p (.along .descendantOrSelf)).tasks mode item)
      (4 * (p.descendants T).length) (p.descendants T) := by
  obtain ⟨n, hn⟩ : ∃ n, n = p.node := ⟨_, rfl⟩
  rw [← hn] at hends
  induction hends generalizing p mode item with
  | intro n hacc ih =>
      subst hn
      rw [Place.descendants, ← Cursor.places_children p (.along .descendantOrSelf)]
      refine Costs.cursor rfl fun q hq => ?_
      rw [Cursor.places_children] at hq
      have hnode : T.IsChild q.node p.node := Place.node_mem_of_mem_childPlaces hq
      have hbelow : Costs T names [.expand (.along .descendant) (.fresh q)]
          (4 * (q.descendants T).length + 1) (q.descendants T) :=
        .expand (by decide) (fun _ => rfl) (ih q.node hnode rfl)
      have hself : Costs T names [.expand (.along .descendantOrSelf) (.fresh q)]
          (4 * (q.descendants T).length + 3) (q :: q.descendants T) :=
        .expand (by decide) (fun _ => rfl) (hbelow.self (Item.isTruthful_fresh q))
      refine ⟨4 * (q.descendants T).length + 3, ?_, ?_⟩
      · rw [Place.subtree_eq (hacc _ hnode), List.length_cons]
        omega
      · rw [Place.subtree_eq (hacc _ hnode)]
        exact hself

/-- A search for the descendants of a node that pass a test ends after four expansions for each
descendant, one for the node itself and one for each match. -/
theorem endsIn_start (names : NameTable) {start : N} (hends : T.EndsBelow start)
    (test : NodeTest) :
    let below := (Place.root start).descendants T
    let found := below.filter (test.passes T names)
    EndsIn T names (Search.start [⟨.descendant, test, none⟩] start)
      (4 * below.length + 1 + found.length) found := by
  intro below found
  have hempty : EndsIn T names
      ⟨none, (Frame.start ⟨.descendant, test, none⟩ []).past T names below :: []⟩ 0 [] :=
    endsIn_of_tasks_nil rfl (.exhausted rfl)
  have hbelow : Costs T names ((Cursor.children T (.root start) (.along .descendantOrSelf)).tasks
      (.along .descendant) (.fresh (.root start))) (4 * below.length) below :=
    costs_children_deep hends
  have hall := hbelow (Frame.start ⟨.descendant, test, none⟩ []) [] 0 [] ⟨rfl, rfl⟩ hempty
  rw [Nat.add_right_comm]
  rw [List.append_nil] at hall
  exact .moved rfl hall

end Search

/-! ## Documents -/

namespace Document

/-- There are as many values in a document as are counted in it. -/
theorem length_places (v : Value) : (places v).length = v.count := by
  have hnumbers := congrArg List.length (number?_places v)
  rwa [List.length_map, List.length_map, List.length_range] at hnumbers

/-- A search that ends after so many expansions, the last of which is no match, is completed by
limits that allow as many and by no others, and lacks no match where only one is not allowed. -/
theorem search_of_endsIn {path : Path} {v : Value} {cost : Nat} {found : List (Place Node)}
    (h : (Search.start path.steps (.root v)).EndsIn Node.tree path.names cost found)
    (limit : Nat) :
    ((search path v (some limit)).ending = .exhausted ↔ cost ≤ limit)
    ∧ (cost ≤ limit → search path v (some limit) = ⟨found, .exhausted⟩)
    ∧ (limit + 1 = cost →
        search path v (some limit) = ⟨found, .failed (.stepLimitExceeded limit)⟩) := by
  obtain ⟨hended, hleft, hmissing⟩ := Query.within_of_endsIn h 0 limit
  have hsearch := search_limited path v limit
  have hcomplete : cost ≤ limit → search path v (some limit) = ⟨found, .exhausted⟩ := fun hle => by
    have hwithin : (query path v none).within limit = _ := hended hle
    rw [hsearch, hwithin]
    rfl
  have hcut : limit < cost →
      (search path v (some limit)).ending = .failed (.stepLimitExceeded limit) := fun hlt => by
    have hending : ((query path v none).within limit).ending = .unfinished := hleft hlt
    rw [hsearch, hending]
    rfl
  refine ⟨⟨fun hending => ?_, fun hle => ?_⟩, hcomplete, fun hlimit => ?_⟩
  · by_contra hlt
    rw [hcut (Nat.lt_of_not_le hlt)] at hending
    cases hending
  · rw [hcomplete hle]
  · have hmatched : ((query path v none).within limit).matched = found := hmissing hlimit
    have hending := hcut (by omega)
    rw [hsearch] at hending ⊢
    rw [hmatched]
    exact congrArg _ hending

/-- **The cost of a descendant search is exact.** Let a path consist of a single step on the
descendant axis, with any test and without a position. On a document of `n` values, of which some
pass the test below the root, its query comes to its end without an error exactly if its limit is at
least `4 * n - 3` and one more for each of these. Then it has found them, and with a limit that is
smaller by one it finds all of them too before it fails. -/
theorem search_descendant {path : Path} (hpath : path.Made) {t : SpelledTest}
    (hspelled : path.spelled = [⟨.descendant, t, none⟩]) (v : Value) (limit : Nat) :
    let found := (placesBelow (.root (.root v)) v).filter (t.passes Node.tree)
    let cost := 4 * v.count - 3 + found.length
    ((search path v (some limit)).ending = .exhausted ↔ cost ≤ limit)
    ∧ (cost ≤ limit → search path v (some limit) = ⟨found, .exhausted⟩)
    ∧ (limit + 1 = cost →
        search path v (some limit) = ⟨found, .failed (.stepLimitExceeded limit)⟩) := by
  intro found cost
  obtain ⟨⟨axis, test, position?⟩, hsteps, hs⟩ := List.map_eq_singleton_iff.mp hspelled
  obtain ⟨rfl, htest, rfl⟩ := SpelledStep.mk.inj hs
  have hpasses : test.passes Node.tree path.names = t.passes Node.tree := by
    funext p
    rw [← htest]
    exact hpath.serves.passes (hsteps ▸ List.mem_cons_self) Node.tree p
  have hcount : (placesBelow (.root (.root v)) v).length + 1 = v.count := length_places v
  have hcost : 4 * (placesBelow (.root (.root v)) v).length + 1 + found.length = cost := by
    omega
  have hends := Search.endsIn_start path.names (Node.endsBelow (.root v)) test
  simp only [descendants_root, hpasses] at hends
  rw [hcost, ← hsteps] at hends
  exact search_of_endsIn hends limit

/-- `[1, \x7b"b": [2], "c": \x7b"b": 3\x7d\x7d]`. -/
def twoBelow : Value :=
  .array [.number (.ofNat 1), .object [("b", .array [.number (.ofNat 2)]),
    ("c", .object [("b", .number (.ofNat 3))])]]

/-- Of seven values, two have the name below the root, so twenty-seven expansions are needed. -/
theorem search_descendant_twoBelow :
    let path := Path.ofSpelled false [⟨.descendant, .name "b", none⟩]
    (path.Made ∧ path.spelled = [⟨.descendant, .name "b", none⟩])
    ∧ twoBelow.count = 7
    ∧ ∃ found : List (Place Node), found.map Place.number? = [some 3, some 6]
      ∧ search path twoBelow (some 27) = ⟨found, .exhausted⟩
      ∧ search path twoBelow (some 26) = ⟨found, .failed (.stepLimitExceeded 26)⟩ := by
  intro path
  have htext : Path.ofText? "descendant::b" = .ok path := by decide +kernel
  have hpath : path.Made := .ofText htext
  have hspelled : path.spelled = [⟨.descendant, .name "b", none⟩] := Path.spelled_ofSpelled _ _
  obtain ⟨-, hcomplete, -⟩ := search_descendant hpath hspelled twoBelow 27
  obtain ⟨-, -, hmissing⟩ := search_descendant hpath hspelled twoBelow 26
  exact ⟨⟨hpath, hspelled⟩, rfl, _, rfl, hcomplete (by decide), hmissing rfl⟩

end Document

end JsonAxes
