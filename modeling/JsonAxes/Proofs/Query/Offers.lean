import JsonAxes.Proofs.Query.Meaning

/-!
# What the tasks of a search offer

A search performs its expansions one at a time; `Search.Yields` says which answers it has given when
nothing is left to do.

The state of a search is a stack of frames with tasks. Each list of tasks *offers* candidates to its
frame (`Search.Offers`): whatever lies below, doing the tasks yields what comes of those candidates,
and then what is yielded without the tasks. The offer of a list is put together from those of single
tasks (`Offers.append`), and that of a task is the offer of the tasks it leads to
(`Offers.of_advance`); only a task on the self axis has to be looked into (`offers_self`).
-/

set_option autoImplicit false

namespace JsonAxes

universe u

variable {N : Type u}

/-! ## What a search yields -/

namespace Search

/-- The answers of a search that comes to an end. -/
inductive Yields (T : Tree N) (names : NameTable) : Search N → Answers N → Prop where
  | exhausted {s : Search N} (h : s.advance T names = .exhausted) : Yields T names s .nothing
  | moved {s s' : Search N} {a : Answers N} (h : s.advance T names = .moved s')
      (hs : Yields T names s' a) : Yields T names s a
  | matched {s s' : Search N} {p : Place N} {a : Answers N} (h : s.advance T names = .matched p s')
      (hs : Yields T names s' a) : Yields T names s (⟨[p], .exhausted⟩ ++ a)
  | failed {s : Search N} {axis : Axis} (h : s.advance T names = .failed axis) :
      Yields T names s ⟨[], .failed (.unsupportedAxis axis)⟩

variable {T : Tree N} {names : NameTable}

/-- A frame without tasks is left behind. -/
theorem advance_of_tasks_nil {f : Frame N} (h : f.tasks = []) (below : List (Frame N)) :
    (⟨none, f :: below⟩ : Search N).advance T names
      = (⟨none, below⟩ : Search N).advance T names := by
  simp only [advance, next?, h]

theorem yields_of_tasks_nil {f : Frame N} {below : List (Frame N)} {a : Answers N}
    (h : f.tasks = []) (ha : Yields T names ⟨none, below⟩ a) :
    Yields T names ⟨none, f :: below⟩ a := by
  cases ha with
  | exhausted hs => exact .exhausted ((advance_of_tasks_nil h below).trans hs)
  | moved hs ha => exact .moved ((advance_of_tasks_nil h below).trans hs) ha
  | matched hs ha => exact .matched ((advance_of_tasks_nil h below).trans hs) ha
  | failed hs => exact .failed ((advance_of_tasks_nil h below).trans hs)

/-- The first task of a frame is done next. -/
theorem next?_push (f : Frame N) (task : Task N) (below : List (Frame N)) :
    next? (f.push [task] :: below) = some (task, f, below) := rfl

end Search

/-! ## Positions among the candidates to come -/

/-- What a position leaves of a list behind so many elements that were counted before. -/
def behindPosition {α : Type u} (position? : Option Nat) : Nat → List α → List α
  | _, [] => []
  | passed, a :: rest =>
    if position?.all (· == passed + 1) then a :: behindPosition position? (passed + 1) rest
    else behindPosition position? (passed + 1) rest

theorem behindPosition_append {α : Type u} (position? : Option Nat) (passed : Nat)
    (l m : List α) : behindPosition position? passed (l ++ m)
      = behindPosition position? passed l ++ behindPosition position? (passed + l.length) m := by
  induction l generalizing passed with
  | nil => rfl
  | cons a l ih =>
      have hlen : passed + (a :: l).length = passed + 1 + l.length := by
        rw [List.length_cons]
        omega
      rw [List.cons_append, hlen]
      simp only [behindPosition]
      split
      · rw [ih, List.cons_append]
      · rw [ih]

theorem behindPosition_none {α : Type u} (passed : Nat) (l : List α) :
    behindPosition none passed l = l := by
  induction l generalizing passed with
  | nil => rfl
  | cons a l ih =>
      show a :: behindPosition none (passed + 1) l = a :: l
      rw [ih]

theorem behindPosition_some {α : Type u} (n passed : Nat) (l : List α) :
    behindPosition (some n) passed l
      = if n ≤ passed then [] else l[n - passed - 1]?.toList := by
  induction l generalizing passed with
  | nil => simp [behindPosition]
  | cons a l ih =>
      rw [behindPosition, ih (passed + 1)]
      by_cases hn : n = passed + 1
      · subst hn
        simp
      · have hne : ¬ (some n).all (· == passed + 1) = true := by simpa using hn
        rw [if_neg hne]
        by_cases hle : n ≤ passed
        · rw [if_pos hle, if_pos (by omega)]
        · rw [if_neg hle, if_neg (by omega)]
          obtain ⟨k, rfl⟩ : ∃ k, n = passed + 2 + k := ⟨n - passed - 2, by omega⟩
          have h₁ : passed + 2 + k - passed - 1 = k + 1 := by omega
          have h₂ : passed + 2 + k - (passed + 1) - 1 = k := by omega
          rw [h₁, h₂, List.getElem?_cons_succ]

/-- Where nothing was counted before, a position leaves what it says. -/
theorem behindPosition_zero {α : Type u} (position? : Option Nat) (l : List α) :
    behindPosition position? 0 l = atPosition position? l := by
  cases position? with
  | none => exact behindPosition_none 0 l
  | some n =>
      rw [behindPosition_some]
      cases n with
      | zero => rfl
      | succ n => rw [if_neg (by omega)]; rfl

/-! ## Frames -/

namespace Frame

variable (T : Tree N) (names : NameTable)

/-- What comes of some candidates of a frame. -/
noncomputable def answersOf (f : Frame N) (candidates : List (Place N)) : Answers N :=
  .join ((behindPosition f.step.position? f.passed
    (candidates.filter (f.step.test.passes T names))).map (Path.answersFrom T names f.after))

/-- A frame that has seen some more candidates. -/
def past (f : Frame N) (candidates : List (Place N)) : Frame N :=
  { f with passed := f.passed + (candidates.filter (f.step.test.passes T names)).length }

theorem answersOf_append (f : Frame N) (cs ds : List (Place N)) :
    f.answersOf T names (cs ++ ds)
      = f.answersOf T names cs ++ (f.past T names cs).answersOf T names ds := by
  simp only [answersOf, past, List.filter_append, behindPosition_append, List.map_append,
    Answers.join_append]

theorem past_append (f : Frame N) (cs ds : List (Place N)) :
    f.past T names (cs ++ ds) = (f.past T names cs).past T names ds := by
  simp only [past, List.filter_append, List.length_append, Nat.add_assoc]

end Frame

/-! ## Testing an item -/

namespace Item

variable {T : Tree N} {names : NameTable}

/-- Whether what was looked up for an item is what would be looked up now. -/
def IsTruthful (T : Tree N) (names : NameTable) (item : Item N) : Prop :=
  ∀ tag, item.tag? = some tag → tag = names.lookup? (T.tag item.place.node)

theorem isTruthful_fresh (p : Place N) : (fresh p).IsTruthful T names := by
  intro tag h
  cases h

theorem IsTruthful.tagNumber {item : Item N} (h : item.IsTruthful T names) :
    item.tagNumber T names = names.lookup? (T.tag item.place.node) := by
  rw [Item.tagNumber]
  cases ht : item.tag? with
  | none => rfl
  | some tag => exact h tag ht

/-- The check of a truthful item is the test of its place, and leaves a truthful item of it. -/
theorem IsTruthful.check {item : Item N} (h : item.IsTruthful T names) (test : NodeTest) :
    ∃ item', item.check T names test = (test.passes T names item.place, item')
      ∧ item'.place = item.place ∧ item'.IsTruthful T names := by
  cases test with
  | wildcard => exact ⟨item, rfl, rfl, h⟩
  | node => exact ⟨item, rfl, rfl, h⟩
  | name id =>
      refine ⟨{ item with tag? := some (item.tagNumber T names) }, ?_, rfl, ?_⟩
      · simp only [Item.check, NodeTest.passes, h.tagNumber]
      · intro tag ht
        cases ht
        exact h.tagNumber

end Item

/-! ## Offers -/

namespace Search

variable (T : Tree N) (names : NameTable) (start : N)

/-- Whether what arrives at some steps yields the answers of those steps, and then whatever the
frames below yield. -/
def Follows (steps : List Step) : Prop :=
  ∀ (item : Item N) (frames : List (Frame N)) (a : Answers N), T.Reaches start item.place →
    item.IsTruthful T names → Yields T names ⟨none, frames⟩ a →
    Yields T names ⟨some (item, steps), frames⟩ (Path.answersFrom T names steps item.place ++ a)

/-- Whether some tasks offer some candidates to whichever frame they are done in. -/
def Offers (tasks : List (Task N)) (candidates : List (Place N)) : Prop :=
  ∀ (f : Frame N) (below : List (Frame N)) (a : Answers N), Follows T names start f.after →
    Yields T names ⟨none, f.past T names candidates :: below⟩ a →
    Yields T names ⟨none, f.push tasks :: below⟩ (f.answersOf T names candidates ++ a)

variable {T names start}

theorem offers_nil : Offers T names start [] [] := by
  intro f below a _ ha
  exact ha

/-- Tasks one after the other offer their candidates one after the other. -/
theorem Offers.append {ts us : List (Task N)} {cs ds : List (Place N)}
    (ht : Offers T names start ts cs) (hu : Offers T names start us ds) :
    Offers T names start (ts ++ us) (cs ++ ds) := by
  intro f below a hf ha
  -- the later tasks are done in the frame that has seen the earlier candidates
  rw [Frame.past_append] at ha
  have hrest := hu (f.past T names cs) below a hf ha
  have hpush : f.push (ts ++ us) = (f.push us).push ts := by
    simp only [Frame.push, List.append_assoc]
  rw [hpush, Frame.answersOf_append, Answers.append_assoc]
  exact ht (f.push us) below _ hf hrest

theorem Offers.cons {t : Task N} {us : List (Task N)} {cs ds : List (Place N)}
    (ht : Offers T names start [t] cs) (hu : Offers T names start us ds) :
    Offers T names start (t :: us) (cs ++ ds) := ht.append hu

/-- A task offers what the tasks offer that it leads to. -/
theorem Offers.of_advance {t : Task N} {ts : List (Task N)} {cs : List (Place N)}
    (h : ∀ (f : Frame N) (below : List (Frame N)),
      (⟨none, f.push [t] :: below⟩ : Search N).advance T names = .moved ⟨none, f.push ts :: below⟩)
    (ht : Offers T names start ts cs) : Offers T names start [t] cs := by
  intro f below a hf ha
  exact .moved (h f below) (ht f below a hf ha)

theorem Offers.resume {mode : Mode} {item : Item N} {cursor : Cursor N} {cs : List (Place N)}
    (h : Offers T names start (cursor.tasks mode item) cs) :
    Offers T names start [.resume mode item cursor] cs :=
  .of_advance (fun f below => by simp only [advance, next?_push]) h

theorem Offers.expand {mode : Mode} {item : Item N} {ts : List (Task N)} {cs : List (Place N)}
    (hm : mode ≠ .along .self) (ht : ∀ test, item.expansion T names test mode = .ok ts)
    (h : Offers T names start ts cs) : Offers T names start [.expand mode item] cs :=
  .of_advance (fun f below => by simp only [advance, next?_push, Frame.expand, if_neg hm, ht]) h

/-- Testing an item yields what comes of its place as a candidate. -/
theorem yields_test {f : Frame N} {item : Item N} {below : List (Frame N)} {a : Answers N}
    (hf : Follows T names start f.after) (hp : T.Reaches start item.place)
    (hi : item.IsTruthful T names)
    (ha : Yields T names ⟨none, f.past T names [item.place] :: below⟩ a) :
    Yields T names (f.test T names item below) (f.answersOf T names [item.place] ++ a) := by
  obtain ⟨item', hcheck, hplace, hi'⟩ := hi.check f.step.test
  simp only [Frame.test, hcheck]
  -- what passes is counted, and goes on only if the step wants the one of that count
  by_cases hpass : f.step.test.passes T names item.place = true
  · have hpast : f.past T names [item.place] = { f with passed := f.passed + 1 } := by
      simp [Frame.past, hpass]
    rw [hpast] at ha
    rw [if_pos hpass, Frame.answersOf, List.filter_cons_of_pos hpass, List.filter_nil,
      behindPosition]
    by_cases hwanted : f.step.position?.all (· == f.passed + 1) = true
    · rw [if_pos hwanted, if_pos hwanted, behindPosition, List.map_singleton, Answers.join_cons,
        Answers.join_nil, Answers.append_nothing, ← hplace]
      exact hf item' _ a (hplace ▸ hp) hi' ha
    · rw [if_neg hwanted, if_neg hwanted]
      exact ha
  · have hpast : f.past T names [item.place] = f := by
      simp [Frame.past, hpass]
    rw [hpast] at ha
    rw [if_neg hpass, Frame.answersOf, List.filter_cons_of_neg hpass]
    exact ha

/-- An item on the self axis offers its place. -/
theorem offers_self (item : Item N) (hp : T.Reaches start item.place)
    (hi : item.IsTruthful T names) :
    Offers T names start [.expand (.along .self) item] [item.place] := by
  intro f below a hf ha
  refine .moved ?_ (yields_test hf hp hi ha)
  simp only [advance, next?_push, Frame.expand, if_true]

theorem offers_fresh_self {p : Place N} (hp : T.Reaches start p) :
    Offers T names start [.expand (.along .self) (.fresh p)] [p] :=
  offers_self (.fresh p) hp (Item.isTruthful_fresh p)

end Search

end JsonAxes
