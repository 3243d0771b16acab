import JsonAxes.Proofs.Query.Limit
import JsonAxes.Proofs.Query.Reached
import JsonAxes.Proofs.Query.Spelled

/-!
# Searches in lockstep

Two searches are *alike* (`Search.Alike`) if they are at the same places with the same tasks left,
in steps that spell the same; one of them may have further steps behind the last, its *tail*. Their
tables may give different numbers to the names, and their trees may say different things of parents,
as long as this concerns no place that is reached (`Lockstep`). Expansion by expansion such searches
stay alike (`Search.Alike.advance`), up to a match of the one without a tail.

Without a tail the two queries have the same outcome (`Query.sameOutcome_of_lockstep`): the same
matches, the same end and the same count of expansions, call after call.
-/

set_option autoImplicit false

namespace JsonAxes

universe u

variable {N : Type u}

/-! ## Being alike -/

/-- Whether two trees differ at most in what they say of parents. -/
structure Tree.AgreesBelow (T T' : Tree N) : Prop where
  tag : T'.tag = T.tag
  children : T'.children = T.children
  hasAttributes : T'.hasAttributes = T.hasAttributes
  attribute? : T'.attribute? = T.attribute?
  attributeNames : T'.attributeNames = T.attributeNames

/-- Whether two tasks do the same at the same place, whatever they remember about it. -/
inductive Task.Alike : Task N → Task N → Prop where
  | expand {mode : Mode} {item item' : Item N} (h : item'.place = item.place) :
      Alike (.expand mode item) (.expand mode item')
  | resume {mode : Mode} {item item' : Item N} (h : item'.place = item.place) (c : Cursor N) :
      Alike (.resume mode item c) (.resume mode item' c)

section Alike

variable (names names' : NameTable) (tail : List SpelledStep)

/-- Whether some steps spell what others spell, with the tail behind it. -/
def Step.Continue (steps steps' : List Step) : Prop :=
  steps'.map (Step.spelled names') = steps.map (Step.spelled names) ++ tail

/-- Whether two frames are at the same point of steps that spell the same. -/
structure Frame.Alike (f f' : Frame N) : Prop where
  step : f'.step.spelled names' = f.step.spelled names
  after : Step.Continue names names' tail f.after f'.after
  passed : f'.passed = f.passed
  tasks : List.Forall₂ Task.Alike f.tasks f'.tasks

/-- Whether nothing or the same place has arrived, at steps that spell the same. -/
def Search.ArrivedAlike : Option (Item N × List Step) → Option (Item N × List Step) → Prop :=
  Option.Rel fun a a' => a'.1.place = a.1.place ∧ Step.Continue names names' tail a.2 a'.2

/-- Whether two searches are at the same point. -/
structure Search.Alike (s s' : Search N) : Prop where
  arrived : Search.ArrivedAlike names names' tail s.arrived? s'.arrived?
  frames : List.Forall₂ (Frame.Alike names names' tail) s.frames s'.frames

/-- Whether the same has come of an expansion in two searches. -/
inductive Advance.Alike : Advance N → Advance N → Prop where
  | exhausted : Alike .exhausted .exhausted
  | moved {s s' : Search N} (h : s.Alike names names' tail s') : Alike (.moved s) (.moved s')
  | matched (p : Place N) {s s' : Search N} (h : s.Alike names names' tail s') :
      Alike (.matched p s) (.matched p s')
  | failed (axis : Axis) : Alike (.failed axis) (.failed axis)

end Alike

/-- What keeps two searches together: trees that agree on all that is reached, and tables that serve
the steps of their paths. -/
structure Lockstep (T T' : Tree N) (path path' : Path) (start : N) : Prop where
  below : T.AgreesBelow T'
  up? : ∀ p, T.Reaches start p → p.up? T' = p.up? T
  serves : path.names.Serves path.steps
  serves' : path'.names.Serves path'.steps

theorem Task.Alike.refl (t : Task N) : t.Alike t := by
  cases t with
  | expand mode item => exact .expand rfl
  | resume mode item c => exact .resume rfl c

theorem Task.forall₂_alike_refl (tasks : List (Task N)) : List.Forall₂ Task.Alike tasks tasks :=
  List.forall₂_same.mpr fun t _ => Task.Alike.refl t

/-! ## Expanding the same item -/

namespace Item

variable {T T' : Tree N} {names names' : NameTable} {test test' : NodeTest} {item item' : Item N}

theorem upTasks_congr (hplace : item'.place = item.place)
    (hup : item.place.up? T' = item.place.up? T) (mode : Mode) :
    item'.upTasks T' mode = item.upTasks T mode := by
  simp only [upTasks, hplace, hup]

/-- A cursor leads to the same children, whatever its item remembers. -/
theorem forall₂_alike_tasks (hplace : item'.place = item.place) (mode : Mode) (c : Cursor N) :
    List.Forall₂ Task.Alike (c.tasks mode item) (c.tasks mode item') := by
  rw [Cursor.tasks, Cursor.tasks]
  split
  · exact .nil
  · split
    · exact .nil
    · exact .cons (.refl _) (.cons (.resume hplace _) .nil)

theorem forall₂_alike_siblingTasks (hplace : item'.place = item.place) (mode : Mode)
    (cursor : Place N → Nat → Cursor N) :
    List.Forall₂ Task.Alike (item.siblingTasks mode cursor) (item'.siblingTasks mode cursor) := by
  rw [siblingTasks, siblingTasks, hplace]
  split
  · exact forall₂_alike_tasks hplace mode _
  · exact .nil

theorem attributeTasks_congr (hT : T.AgreesBelow T') (hplace : item'.place = item.place) :
    item'.attributeTasks T' = item.attributeTasks T := by
  funext name
  simp only [attributeTasks, hT.attribute?, hplace]

/-- Whether two expansions lead to tasks that are alike, or fail for the same axis. -/
inductive ExpandsAlike : Except Axis (List (Task N)) → Except Axis (List (Task N)) → Prop where
  | ok {tasks tasks' : List (Task N)} (h : List.Forall₂ Task.Alike tasks tasks') :
      ExpandsAlike (.ok tasks) (.ok tasks')
  | error (axis : Axis) : ExpandsAlike (.error axis) (.error axis)

theorem ExpandsAlike.rfl {tasks : Except Axis (List (Task N))} : ExpandsAlike tasks tasks := by
  cases tasks with
  | ok tasks => exact .ok (Task.forall₂_alike_refl tasks)
  | error axis => exact .error axis

/-- Items at the same place lead to tasks that are alike, in trees that agree about the place. -/
theorem expansion_alike (hT : T.AgreesBelow T') (hplace : item'.place = item.place)
    (hup : item.place.up? T' = item.place.up? T)
    (hnames : test'.attributeNames T' names' item.place
      = test.attributeNames T names item.place) (mode : Mode) :
    ExpandsAlike (item.expansion T names test mode) (item'.expansion T' names' test' mode) := by
  have hchildren : Cursor.children T' = Cursor.children T := by
    funext owner emit
    simp only [Cursor.children, hT.children]
  have hbefore : Cursor.before T' = Cursor.before T := by
    funext owner i emit
    simp only [Cursor.before, hT.children]
  have hbehind : Cursor.behind T' = Cursor.behind T := by
    funext owner i emit
    simp only [Cursor.behind, hT.children]
  cases mode with
  | followingSubtrees =>
      simp only [expansion, hbehind]
      exact .ok (forall₂_alike_siblingTasks hplace _ _)
  | precedingSubtrees =>
      simp only [expansion, hbefore]
      exact .ok (forall₂_alike_siblingTasks hplace _ _)
  | along axis =>
      cases axis with
      | self => exact .rfl
      | namespaces => exact .rfl
      | child | descendant =>
          simp only [expansion, hplace, hchildren]
          exact .ok (forall₂_alike_tasks hplace _ _)
      | descendantOrSelf | ancestorOrSelf =>
          exact .ok (.cons (.expand hplace) (.cons (.expand hplace) .nil))
      | parent | ancestor =>
          simp only [expansion, upTasks_congr hplace hup]
          exact .rfl
      | followingSibling =>
          simp only [expansion, hbehind]
          exact .ok (forall₂_alike_siblingTasks hplace _ _)
      | precedingSibling =>
          simp only [expansion, hbefore]
          exact .ok (forall₂_alike_siblingTasks hplace _ _)
      | following =>
          simp only [expansion, upTasks_congr hplace hup]
          exact .ok (.cons (.expand hplace) (Task.forall₂_alike_refl _))
      | preceding =>
          simp only [expansion, upTasks_congr hplace hup]
          exact .ok (List.rel_append (Task.forall₂_alike_refl _) (.cons (.expand hplace) .nil))
      | attributes =>
          simp only [expansion, hT.hasAttributes, attributesFor_eq, hplace, hnames,
            attributeTasks_congr hT hplace]
          exact .rfl

end Item

/-! ## One expansion -/

section Lockstep

variable {T T' : Tree N} {path path' : Path} {start : N} {tail : List SpelledStep}

namespace Frame

variable {f f' : Frame N} {below below' : List (Frame N)} {item item' : Item N}

theorem Alike.passes_eq (hL : Lockstep T T' path path' start)
    (h : f.Alike path.names path'.names tail f') (hf : f.IsReal T path start)
    (hf' : f'.IsReal T' path' start) (p : Place N) :
    f'.step.test.passes T' path'.names p = f.step.test.passes T path.names p := by
  have hstep : f.step ∈ path.steps := hf.suffix.subset List.mem_cons_self
  have hstep' : f'.step ∈ path'.steps := hf'.suffix.subset List.mem_cons_self
  have htest : f'.step.test.spelled path'.names = f.step.test.spelled path.names :=
    congrArg SpelledStep.test h.step
  rw [hL.serves'.passes hstep', hL.serves.passes hstep, htest]
  cases f.step.test.spelled path.names with
  | wildcard => rfl
  | node => rfl
  | name wanted => simp only [SpelledTest.passes, hL.below.tag]

theorem Alike.attributeNames_eq (hL : Lockstep T T' path path' start)
    (h : f.Alike path.names path'.names tail f') (hf : f.IsReal T path start)
    (hf' : f'.IsReal T' path' start) (p : Place N) :
    f'.step.test.attributeNames T' path'.names p = f.step.test.attributeNames T path.names p := by
  have hstep : f.step ∈ path.steps := hf.suffix.subset List.mem_cons_self
  have hstep' : f'.step ∈ path'.steps := hf'.suffix.subset List.mem_cons_self
  have htest : f'.step.test.spelled path'.names = f.step.test.spelled path.names :=
    congrArg SpelledStep.test h.step
  rw [hL.serves'.attributeNames hstep', hL.serves.attributeNames hstep, htest]
  cases f.step.test.spelled path.names with
  | wildcard => simp only [SpelledTest.attributeNames, hL.below.attributeNames]
  | node => simp only [SpelledTest.attributeNames, hL.below.attributeNames]
  | name wanted => rfl

theorem Alike.push (h : f.Alike path.names path'.names tail f') {tasks tasks' : List (Task N)}
    (ht : List.Forall₂ Task.Alike tasks tasks') :
    (f.push tasks).Alike path.names path'.names tail (f'.push tasks') :=
  ⟨h.step, h.after, h.passed, List.rel_append ht h.tasks⟩

/-- Testing a place in frames that are alike leaves searches that are alike. -/
theorem Alike.test (hL : Lockstep T T' path path' start)
    (h : f.Alike path.names path'.names tail f') (hf : f.IsReal T path start)
    (hf' : f'.IsReal T' path' start)
    (hbelow : List.Forall₂ (Frame.Alike path.names path'.names tail) below below')
    (hplace : item'.place = item.place) (hi : item.IsReal T path start)
    (hi' : item'.IsReal T' path' start) :
    (f.test T path.names item below).Alike path.names path'.names tail
      (f'.test T' path'.names item' below') := by
  obtain ⟨passed, hcheck, hpassed, -⟩ := hi.truthful.check f.step.test
  obtain ⟨passed', hcheck', hpassed', -⟩ := hi'.truthful.check f'.step.test
  have hpass := h.passes_eq hL hf hf' item.place
  have hposition : f'.step.position? = f.step.position? := congrArg SpelledStep.position? h.step
  simp only [Frame.test, hcheck, hcheck', hplace, hpass, hposition, h.passed]
  split
  · refine ⟨?_, .cons ⟨h.step, h.after, rfl, h.tasks⟩ hbelow⟩
    -- both or neither are at the position that is asked for
    split
    · exact .some ⟨by rw [hpassed', hpassed, hplace], h.after⟩
    · exact .none
  · exact ⟨.none, .cons h hbelow⟩

/-- Expanding a place in frames that are alike leaves searches that are alike. -/
theorem Alike.expand (hL : Lockstep T T' path path' start)
    (h : f.Alike path.names path'.names tail f') (hf : f.IsReal T path start)
    (hf' : f'.IsReal T' path' start)
    (hbelow : List.Forall₂ (Frame.Alike path.names path'.names tail) below below')
    (hplace : item'.place = item.place) (hi : item.IsReal T path start)
    (hi' : item'.IsReal T' path' start) (mode : Mode) :
    (f.expand T path.names mode item below).Alike path.names path'.names tail
      (f'.expand T' path'.names mode item' below') := by
  rw [Frame.expand, Frame.expand]
  split
  · exact .moved (h.test hL hf hf' hbelow hplace hi hi')
  · have hexpands := Item.expansion_alike hL.below hplace (hL.up? _ hi.reached)
      (h.attributeNames_eq hL hf hf' item.place) mode
    generalize item.expansion T path.names f.step.test mode = e at hexpands
    generalize item'.expansion T' path'.names f'.step.test mode = e' at hexpands
    cases hexpands with
    | ok ht => exact .moved ⟨.none, .cons (h.push ht) hbelow⟩
    | error axis => exact .failed axis

end Frame

namespace Search

variable {s s' : Search N}

/-- Frames that are alike have next tasks that are alike, or neither has any. -/
inductive NextAlike (names names' : NameTable) (tail : List SpelledStep) :
    Option (Task N × Frame N × List (Frame N)) → Option (Task N × Frame N × List (Frame N)) →
      Prop where
  | none : NextAlike names names' tail .none .none
  | some {t t' : Task N} {f f' : Frame N} {below below' : List (Frame N)} (ht : t.Alike t')
      (hf : f.Alike names names' tail f')
      (hbelow : List.Forall₂ (Frame.Alike names names' tail) below below') :
      NextAlike names names' tail (.some (t, f, below)) (.some (t', f', below'))

theorem next?_alike {names names' : NameTable} {frames frames' : List (Frame N)}
    (h : List.Forall₂ (Frame.Alike names names' tail) frames frames') :
    NextAlike names names' tail (next? frames) (next? frames') := by
  induction h with
  | nil => exact .none
  | @cons f f' below below' hf hbelow ih =>
      obtain ⟨step, after, passed, tasks⟩ := f
      obtain ⟨step', after', passed', tasks'⟩ := f'
      have htasks : List.Forall₂ Task.Alike tasks tasks' := hf.tasks
      cases htasks with
      | nil => exact ih
      | cons ht htasks => exact .some ht ⟨hf.step, hf.after, hf.passed, htasks⟩ hbelow

/-- **Searches that are alike stay alike**, unless one comes to the end of its steps and the other
has further ones. -/
theorem Alike.advance (hL : Lockstep T T' path path' start)
    (h : s.Alike path.names path'.names tail s') (hs : s.IsReal T path start)
    (hs' : s'.IsReal T' path' start)
    (hend : tail = [] ∨ ∀ item, s.arrived? ≠ some (item, [])) :
    (s.advance T path.names).Alike path.names path'.names tail
      (s'.advance T' path'.names) := by
  obtain ⟨arrived?, frames⟩ := s
  obtain ⟨arrived?', frames'⟩ := s'
  have hframes : List.Forall₂ (Frame.Alike path.names path'.names tail) frames frames' := h.frames
  have harrived : ArrivedAlike path.names path'.names tail arrived? arrived?' := h.arrived
  cases harrived with
  | none =>
      have hnext := next?_alike hframes
      simp only [Search.advance]
      generalize hn : next? frames = next at hnext
      generalize hn' : next? frames' = next' at hnext
      cases hnext with
      | none => exact .exhausted
      | some ht hf hbelow =>
          obtain ⟨htask, hreal, -⟩ := IsReal.next hs.frames hn
          obtain ⟨htask', hreal', -⟩ := IsReal.next hs'.frames hn'
          cases ht with
          | expand hplace =>
              cases htask with
              | expand hm hi =>
                  cases htask' with
                  | expand hm' hi' => exact hf.expand hL hreal hreal' hbelow hplace hi hi' _
          | resume hplace c =>
              exact .moved ⟨.none, .cons (hf.push (Item.forall₂_alike_tasks hplace _ c)) hbelow⟩
  | @some a a' ha =>
      obtain ⟨item, rest⟩ := a
      obtain ⟨item', rest'⟩ := a'
      obtain ⟨hplace, hrest⟩ := ha
      obtain ⟨hi, hsuffix⟩ := hs.arrived item rest rfl
      obtain ⟨hi', hsuffix'⟩ := hs'.arrived item' rest' rfl
      cases rest with
      | nil =>
          rcases hend with rfl | hne
          · -- neither has further steps
            have hnil : rest' = [] := List.map_eq_nil_iff.mp hrest
            subst hnil
            have hmatched : Advance.Alike path.names path'.names []
                (.matched item.place ⟨none, frames⟩) (.matched item.place ⟨none, frames'⟩) :=
              .matched item.place ⟨.none, hframes⟩
            simp only [Search.advance]
            rw [show item'.place = item.place from hplace]
            exact hmatched
          · exact absurd rfl (hne item)
      | cons step after =>
          obtain ⟨step', after', rfl, hstep, hafter⟩ := List.map_eq_cons_iff.mp hrest
          have hframe : (Frame.start step after : Frame N).Alike path.names path'.names tail
              (Frame.start step' after') := ⟨hstep, hafter, rfl, .nil⟩
          have haxis : step'.axis = step.axis := congrArg SpelledStep.axis hstep
          simp only [Search.advance]
          rw [haxis]
          exact hframe.expand hL (Frame.isReal_start hsuffix) (Frame.isReal_start hsuffix') hframes
            hplace hi hi' _

/-- Searches that are alike have both something left to do, or neither has. -/
theorem Alike.isExhausted_eq {names names' : NameTable} (h : s.Alike names names' tail s') :
    s'.isExhausted = s.isExhausted := by
  have harrived : s'.arrived?.isNone = s.arrived?.isNone := by
    have h := h.arrived
    generalize s.arrived? = arrived? at h
    generalize s'.arrived? = arrived?' at h
    cases h with
    | none => rfl
    | some _ => rfl
  have hall : ∀ {frames frames' : List (Frame N)},
      List.Forall₂ (Frame.Alike names names' tail) frames frames' →
      frames'.all (·.tasks.isEmpty) = frames.all (·.tasks.isEmpty) := by
    intro frames frames' hframes
    induction hframes with
    | nil => rfl
    | @cons f f' _ _ hf _ ih =>
        have hempty : f'.tasks.isEmpty = f.tasks.isEmpty := by
          rw [Bool.eq_iff_iff, List.isEmpty_iff_length_eq_zero, List.isEmpty_iff_length_eq_zero,
            hf.tasks.length_eq]
        rw [List.all_cons, List.all_cons, hempty, ih]
  rw [isExhausted, isExhausted, harrived, hall h.frames]

end Search

end Lockstep

/-! ## Queries with the same outcome -/

namespace Query

/-- How many expansions a query has performed before a call, counted from zero, when every call
allows so many. -/
def takenBefore (q : Query N) (expansions : Nat) : Nat → Nat
  | 0 => q.taken
  | call + 1 => (q.next expansions).2.takenBefore expansions call

/-- Whether two queries find the same in the same order, end in the same way, and perform as many
expansions for all of this. -/
structure SameOutcome (q q' : Query N) : Prop where
  run : ∀ n, q'.run n = q.run n
  yieldAt : ∀ n call, q'.yieldAt n call = q.yieldAt n call
  takenBefore : ∀ n call, q'.takenBefore n call = q.takenBefore n call

/-- Whether an expansion yields the same in two queries and leaves related ones. -/
inductive Progress.Related (R : Query N → Query N → Prop) : Progress N → Progress N → Prop where
  | exhausted : Related R .exhausted .exhausted
  | working {q q' : Query N} (h : R q q') : Related R (.working q) (.working q')
  | matched (p : Place N) {q q' : Query N} (h : R q q') : Related R (.matched p q) (.matched p q')
  | failed (e : QueryError) {q q' : Query N} (h : R q q') : Related R (.failed e q) (.failed e q')

/-- Whether related queries have performed as many expansions, and stay related by the next. -/
def IsBisimulation (R : Query N → Query N → Prop) : Prop :=
  ∀ q q', R q q' → q'.taken = q.taken ∧ Progress.Related R q.advance q'.advance

namespace IsBisimulation

variable {R : Query N → Query N → Prop} {q q' : Query N}

theorem run_eq (hR : IsBisimulation R) (h : R q q') (n : Nat) : q'.run n = q.run n := by
  induction n generalizing q q' with
  | zero => rfl
  | succ n ih =>
      have hprogress := (hR q q' h).2
      rw [run, run]
      generalize q.advance = progress at hprogress
      generalize q'.advance = progress' at hprogress
      cases hprogress with
      | exhausted => rfl
      | working h' => exact ih h'
      | matched p h' => simp only [ih h']
      | failed e h' => rfl

/-- The next call yields the same and leaves related queries. -/
theorem next_eq (hR : IsBisimulation R) (h : R q q') (n : Nat) :
    (q'.next n).1 = (q.next n).1 ∧ R (q.next n).2 (q'.next n).2 := by
  induction n generalizing q q' with
  | zero => exact ⟨rfl, h⟩
  | succ n ih =>
      have hprogress := (hR q q' h).2
      rw [next, next]
      generalize q.advance = progress at hprogress
      generalize q'.advance = progress' at hprogress
      cases hprogress with
      | exhausted => exact ⟨rfl, h⟩
      | working h' => exact ih h'
      | matched p h' => exact ⟨rfl, h'⟩
      | failed e h' => exact ⟨rfl, h'⟩

/-- Queries that are related by a bisimulation have the same outcome. -/
theorem sameOutcome (hR : IsBisimulation R) (h : R q q') : q.SameOutcome q' where
  run := hR.run_eq h
  yieldAt n call := by
    induction call generalizing q q' with
    | zero => exact (hR.next_eq h n).1
    | succ call ih => exact ih (hR.next_eq h n).2
  takenBefore n call := by
    induction call generalizing q q' with
    | zero => exact (hR q q' h).1
    | succ call ih => exact ih (hR.next_eq h n).2

end IsBisimulation

/-- Whether two queries have searches that are alike, and the same limit. -/
inductive InStep (T T' : Tree N) (path path' : Path) (start : N) : Query N → Query N → Prop where
  | mk {s s' : Search N} (h : s.Alike path.names path'.names [] s') (hs : s.IsReal T path start)
      (hs' : s'.IsReal T' path' start) (taken : Nat) (limit? : Option Nat) :
      InStep T T' path path' start ⟨T, path.names, s, taken, limit?⟩
        ⟨T', path'.names, s', taken, limit?⟩

variable {T T' : Tree N} {path path' : Path} {start : N}

/-- An expansion takes queries in step to queries in step. -/
theorem isBisimulation_inStep (hL : Lockstep T T' path path' start) :
    IsBisimulation (InStep T T' path path' start) := by
  rintro _ _ ⟨h, hs, hs', taken, limit?⟩
  rename_i s s'
  refine ⟨rfl, ?_⟩
  generalize hq : (⟨T, path.names, s, taken, limit?⟩ : Query N) = q
  generalize hq' : (⟨T', path'.names, s', taken, limit?⟩ : Query N) = q'
  have hsearch : q.search = s := by rw [← hq]
  have hsearch' : q'.search = s' := by rw [← hq']
  have hended : InStep T T' path path' start q.ended q'.ended := by
    have hfinished : (Search.finished : Search N).Alike path.names path'.names [] .finished :=
      ⟨.none, .nil⟩
    rw [← hq, ← hq']
    exact .mk hfinished Search.isReal_finished Search.isReal_finished taken limit?
  have hlimit : q'.limit? = q.limit? := by rw [← hq, ← hq']
  have hspent : q'.isSpent = q.isSpent := by rw [← hq, ← hq', isSpent, isSpent]
  cases hex : s.isExhausted with
  | true =>
      have hex' : s'.isExhausted = true := h.isExhausted_eq.trans hex
      rw [advance_of_isExhausted (hsearch ▸ hex), advance_of_isExhausted (hsearch' ▸ hex')]
      exact .exhausted
  | false =>
      have hex' : s'.isExhausted = false := h.isExhausted_eq.trans hex
      cases hsp : q.isSpent with
      | true =>
          rw [advance_of_isSpent (hsearch ▸ hex) hsp,
            advance_of_isSpent (hsearch' ▸ hex') (hspent.trans hsp), hlimit]
          exact .failed _ hended
      | false =>
          rw [advance_of_not_isSpent hsp, advance_of_not_isSpent (hspent.trans hsp)]
          subst hq hq'
          have hadvance := h.advance hL hs hs' (.inl rfl)
          have hreal := hs.advance
          have hreal' := hs'.advance
          simp only
          generalize s.advance T path.names = advance at hadvance hreal
          generalize s'.advance T' path'.names = advance' at hadvance hreal'
          cases hadvance with
          | exhausted => exact .exhausted
          | moved h => exact .working (.mk h hreal hreal' _ _)
          | matched p h => exact .matched p (.mk h hreal.2 hreal'.2 _ _)
          | failed axis => exact .failed _ hended

/-- **Queries in lockstep have the same outcome.** -/
theorem sameOutcome_of_lockstep (hL : Lockstep T T' path path' start)
    (hspelled : path'.spelled = path.spelled) (limit? : Option Nat) :
    (Query.start T path start limit?).SameOutcome (Query.start T' path' start limit?) := by
  have halike : (Search.start path.steps start).Alike path.names path'.names []
      (Search.start path'.steps start) := by
    refine ⟨.some ⟨rfl, ?_⟩, .nil⟩
    rw [Step.Continue, List.append_nil]
    exact hspelled
  exact (isBisimulation_inStep hL).sameOutcome
    (.mk halike (Search.isReal_start path start) (Search.isReal_start path' start) 0 limit?)

end Query

end JsonAxes
