import JsonAxes.Proofs.Query.Evaluation

/-!
# What a search holds

A search only ever holds what is really there (`Search.IsReal`): its items stand at places that its
start reaches and remember tags that their nodes have, its cursors have the children before them
from their index on, and its frames belong to steps of its path. One expansion keeps this, whatever
the tree (`Search.IsReal.advance`), and it fails only at a step on an axis that the tree lacks.
-/

set_option autoImplicit false

namespace JsonAxes

universe u

variable {N : Type u}

/-! ## Items, cursors and tasks -/

/-- Whether a tree has the axis along which a mode expands. Both halves of the following and the
preceding axis are had by all trees. -/
def Mode.IsSupported (T : Tree N) : Mode → Prop
  | .along axis => T.supports axis = true
  | .followingSubtrees => True
  | .precedingSubtrees => True

section Real

variable (T : Tree N) (path : Path) (start : N)

/-- Whether an item stands at a place that is reached and remembers nothing wrong about it. -/
structure Item.IsReal (item : Item N) : Prop where
  reached : T.Reaches start item.place
  truthful : item.IsTruthful T path.names

/-- Whether a cursor visits children of its owner, each at its index. -/
structure Cursor.IsReal (c : Cursor N) : Prop where
  reached : T.Reaches start c.owner
  rest_eq : c.rest = (T.children c.owner.node).drop c.index
  supported : c.emit.IsSupported T

/-- Whether a task is about a real item, and a real cursor where it has one. -/
inductive Task.IsReal : Task N → Prop where
  | expand {mode : Mode} {item : Item N} (hm : mode.IsSupported T)
      (hi : item.IsReal T path start) : IsReal (.expand mode item)
  | resume {mode : Mode} {item : Item N} {c : Cursor N} (hi : item.IsReal T path start)
      (hc : c.IsReal T start) : IsReal (.resume mode item c)

/-- Whether a frame belongs to a step of the path and has real tasks. -/
structure Frame.IsReal (f : Frame N) : Prop where
  suffix : f.step :: f.after <:+ path.steps
  tasks : ∀ t ∈ f.tasks, t.IsReal T path start

/-- Whether all that a search holds is real. -/
structure Search.IsReal (s : Search N) : Prop where
  arrived : ∀ item rest, s.arrived? = some (item, rest) →
    item.IsReal T path start ∧ rest <:+ path.steps
  frames : ∀ f ∈ s.frames, f.IsReal T path start

/-- Whether an expansion leaves only what is real, and fails only for an axis of the path that the
tree lacks. -/
def Advance.IsReal : Advance N → Prop
  | .exhausted => True
  | .moved s => s.IsReal T path start
  | .matched p s => T.Reaches start p ∧ s.IsReal T path start
  | .failed axis => T.supports axis = false ∧ ∃ s ∈ path.steps, s.axis = axis

end Real

variable {T : Tree N} {path : Path} {start : N}

theorem Item.isReal_fresh {p : Place N} (hp : T.Reaches start p) :
    (Item.fresh p).IsReal T path start :=
  ⟨hp, Item.isTruthful_fresh p⟩

theorem Task.isReal_expand_fresh {p : Place N} {mode : Mode} (hp : T.Reaches start p)
    (hm : mode.IsSupported T) : (Task.expand mode (.fresh p)).IsReal T path start :=
  .expand hm (Item.isReal_fresh hp)

/-! ## What real items and cursors lead to -/

namespace Cursor

theorem isReal_children {p : Place N} (hp : T.Reaches start p) {emit : Mode}
    (hemit : emit.IsSupported T) : (children T p emit).IsReal T start :=
  ⟨hp, rfl, hemit⟩

theorem isReal_before {p : Place N} (hp : T.Reaches start p) (i : Nat) {emit : Mode}
    (hemit : emit.IsSupported T) : (before T p i emit).IsReal T start :=
  ⟨hp, rfl, hemit⟩

theorem isReal_behind {p : Place N} (hp : T.Reaches start p) (i : Nat) {emit : Mode}
    (hemit : emit.IsSupported T) : (behind T p i emit).IsReal T start :=
  ⟨hp, rfl, hemit⟩

/-- A cursor leads to the child at its index, and back to its item with the children behind that. -/
theorem IsReal.tasks {c : Cursor N} (h : c.IsReal T start) {mode : Mode} {item : Item N}
    (hi : item.IsReal T path start) : ∀ t ∈ c.tasks mode item, t.IsReal T path start := by
  cases hleft : c.left with
  | nil =>
      rw [tasks_of_left_nil hleft]
      exact List.forall_mem_nil _
  | cons n others =>
      obtain ⟨rest, hrest, -, htasks⟩ := exists_of_left_cons hleft mode item
      have hdrop := h.rest_eq
      rw [hrest] at hdrop
      have hchild : (T.children c.owner.node)[c.index]? = some n := by
        rw [← Nat.add_zero c.index, ← List.getElem?_drop, ← hdrop, List.getElem?_cons_zero]
      have hbehind : rest = (T.children c.owner.node).drop (c.index + 1) := by
        rw [← List.drop_drop, ← hdrop, List.drop_succ_cons, List.drop_zero]
      rw [htasks, List.forall_mem_cons, List.forall_mem_singleton]
      exact ⟨Task.isReal_expand_fresh (h.reached.child hchild) h.supported,
        .resume hi ⟨h.reached, hbehind, h.supported⟩⟩

end Cursor

namespace Item

variable {item : Item N}

theorem IsReal.upTasks (h : item.IsReal T path start) {mode : Mode} (hm : mode.IsSupported T) :
    ∀ t ∈ item.upTasks T mode, t.IsReal T path start := by
  intro t ht
  rw [Item.upTasks] at ht
  split at ht
  · next above habove =>
    rw [List.mem_singleton.mp ht]
    exact Task.isReal_expand_fresh (h.reached.up habove) hm
  · cases ht

theorem IsReal.siblingTasks (h : item.IsReal T path start) {mode : Mode}
    {cursor : Place N → Nat → Cursor N}
    (hcursor : ∀ owner i, T.Reaches start owner → (cursor owner i).IsReal T start) :
    ∀ t ∈ item.siblingTasks mode cursor, t.IsReal T path start := by
  intro t ht
  rw [Item.siblingTasks] at ht
  split at ht
  · next owner i n hplace =>
    have howner : T.Reaches start owner := (hplace ▸ h.reached).owner
    exact (hcursor owner i howner).tasks h t ht
  · cases ht

theorem IsReal.attributeTasks (h : item.IsReal T path start) (keys : List String) :
    ∀ t ∈ keys.flatMap (item.attributeTasks T), t.IsReal T path start := by
  intro t ht
  obtain ⟨name, -, ht⟩ := List.mem_flatMap.mp ht
  rw [Item.attributeTasks] at ht
  split at ht
  · next n hn =>
    rw [List.mem_singleton.mp ht]
    exact Task.isReal_expand_fresh (h.reached.attr hn) rfl
  · cases ht

/-- The tasks that a real item leads to are real. -/
theorem IsReal.expansion (h : item.IsReal T path start) {test : NodeTest} {mode : Mode}
    {tasks : List (Task N)} (htasks : item.expansion T path.names test mode = .ok tasks) :
    ∀ t ∈ tasks, t.IsReal T path start := by
  have hself : ∀ {axis}, T.supports axis = true →
      (Task.expand (.along axis) item).IsReal T path start := fun hs => .expand hs h
  cases mode with
  | followingSubtrees =>
      cases htasks
      exact h.siblingTasks fun owner i ho => Cursor.isReal_behind ho i rfl
  | precedingSubtrees =>
      cases htasks
      exact h.siblingTasks fun owner i ho => Cursor.isReal_before ho i rfl
  | along axis =>
      cases axis with
      | self =>
          cases htasks
          exact List.forall_mem_nil _
      | child =>
          cases htasks
          have hemit : (Mode.along .self).IsSupported T := rfl
          exact (Cursor.isReal_children h.reached hemit).tasks h
      | descendant =>
          cases htasks
          have hemit : (Mode.along .descendantOrSelf).IsSupported T := rfl
          exact (Cursor.isReal_children h.reached hemit).tasks h
      | descendantOrSelf | ancestorOrSelf =>
          cases htasks
          simp only [List.forall_mem_cons]
          exact ⟨hself rfl, hself rfl, List.forall_mem_nil _⟩
      | parent | ancestor =>
          cases htasks
          exact h.upTasks rfl
      | followingSibling =>
          cases htasks
          exact h.siblingTasks fun owner i ho => Cursor.isReal_behind ho i rfl
      | precedingSibling =>
          cases htasks
          exact h.siblingTasks fun owner i ho => Cursor.isReal_before ho i rfl
      | following =>
          cases htasks
          exact List.forall_mem_cons.mpr ⟨.expand trivial h, h.upTasks rfl⟩
      | preceding =>
          cases htasks
          refine List.forall_mem_append.mpr ⟨h.upTasks rfl, ?_⟩
          exact List.forall_mem_singleton.mpr (.expand trivial h)
      | attributes =>
          rw [Item.expansion] at htasks
          split at htasks
          · cases htasks
            exact h.attributeTasks _
          · cases htasks
      | namespaces => cases htasks

/-- Expanding an item fails only along an axis that the tree lacks. -/
theorem not_supports_of_expansion {names : NameTable} {test : NodeTest} {mode : Mode} {axis : Axis}
    (h : item.expansion T names test mode = .error axis) :
    mode = .along axis ∧ T.supports axis = false := by
  cases mode with
  | followingSubtrees => cases h
  | precedingSubtrees => cases h
  | along other =>
      cases other with
      | attributes =>
          rw [expansion] at h
          split at h
          · cases h
          · next hattr =>
            cases h
            exact ⟨rfl, Bool.eq_false_iff.mpr hattr⟩
      | namespaces =>
          cases h
          exact ⟨rfl, rfl⟩
      | _ => cases h

end Item

/-! ## One expansion -/

/-- Where nothing has arrived, the frames are all that a search holds. -/
theorem Search.isReal_of_frames {frames : List (Frame N)}
    (h : ∀ f ∈ frames, f.IsReal T path start) :
    (⟨none, frames⟩ : Search N).IsReal T path start where
  arrived item rest harrived := by cases harrived
  frames := h

theorem Search.isReal_finished : (finished : Search N).IsReal T path start :=
  isReal_of_frames (List.forall_mem_nil _)

namespace Frame

variable {f : Frame N} {below : List (Frame N)} {item : Item N}

theorem IsReal.push (h : f.IsReal T path start) {tasks : List (Task N)}
    (ht : ∀ t ∈ tasks, t.IsReal T path start) : (f.push tasks).IsReal T path start :=
  ⟨h.suffix, List.forall_mem_append.mpr ⟨ht, h.tasks⟩⟩

theorem isReal_start {step : Step} {after : List Step} (h : step :: after <:+ path.steps) :
    (Frame.start step after : Frame N).IsReal T path start :=
  ⟨h, List.forall_mem_nil _⟩

theorem IsReal.test (h : f.IsReal T path start) (hb : ∀ g ∈ below, g.IsReal T path start)
    (hi : item.IsReal T path start) :
    (f.test T path.names item below).IsReal T path start := by
  obtain ⟨item', hcheck, hplace, htruthful⟩ := hi.truthful.check f.step.test
  have hi' : item'.IsReal T path start := ⟨hplace ▸ hi.reached, htruthful⟩
  have hafter : f.after <:+ path.steps := (List.suffix_cons _ _).trans h.suffix
  have hcounted : ({ f with passed := f.passed + 1 } : Frame N).IsReal T path start :=
    ⟨h.suffix, h.tasks⟩
  simp only [Frame.test, hcheck]
  split
  · refine ⟨fun arrived rest harrived => ?_, List.forall_mem_cons.mpr ⟨hcounted, hb⟩⟩
    split at harrived
    · cases harrived
      exact ⟨hi', hafter⟩
    · cases harrived
  · exact Search.isReal_of_frames (List.forall_mem_cons.mpr ⟨h, hb⟩)

/-- An expansion within a frame keeps what is real; it fails only where its mode is the frame's own
axis and the tree lacks that. -/
theorem IsReal.expand (h : f.IsReal T path start) (hb : ∀ g ∈ below, g.IsReal T path start)
    (hi : item.IsReal T path start) {mode : Mode}
    (hmode : mode.IsSupported T ∨ mode = .along f.step.axis) :
    (f.expand T path.names mode item below).IsReal T path start := by
  rw [Frame.expand]
  split
  · exact h.test hb hi
  · split
    · next tasks htasks =>
      have hpushed := h.push (hi.expansion htasks)
      exact Search.isReal_of_frames (List.forall_mem_cons.mpr ⟨hpushed, hb⟩)
    · next axis haxis =>
      obtain ⟨rfl, hnot⟩ := Item.not_supports_of_expansion haxis
      have hown : axis = f.step.axis := by
        rcases hmode with hs | hm
        · rw [Mode.IsSupported, hnot] at hs
          cases hs
        · exact Mode.along.inj hm
      exact ⟨hnot, f.step, h.suffix.subset List.mem_cons_self, hown.symm⟩

end Frame

namespace Search

/-- The next task is the first of the first frame that has any. -/
theorem exists_append_of_next? {frames below : List (Frame N)} {task : Task N} {f : Frame N}
    (h : next? frames = some (task, f, below)) :
    ∃ done, frames = done ++ f.push [task] :: below := by
  induction frames with
  | nil => cases h
  | cons g frames ih =>
      rw [next?] at h
      cases htasks : g.tasks with
      | nil =>
          rw [htasks] at h
          obtain ⟨done, hdone⟩ := ih h
          exact ⟨g :: done, by rw [hdone, List.cons_append]⟩
      | cons t tasks =>
          rw [htasks] at h
          cases h
          refine ⟨[], ?_⟩
          rw [List.nil_append, Frame.push, List.singleton_append, ← htasks]

theorem isReal_start (path : Path) (start : N) :
    (Search.start path.steps start).IsReal T path start := by
  refine ⟨fun item rest h => ?_, List.forall_mem_nil _⟩
  cases h
  exact ⟨Item.isReal_fresh .start, List.suffix_rfl⟩

/-- The task that is done next is real, and so are its frame and those below. -/
theorem IsReal.next {frames below : List (Frame N)} {task : Task N} {f : Frame N}
    (h : ∀ g ∈ frames, g.IsReal T path start) (hnext : next? frames = some (task, f, below)) :
    task.IsReal T path start ∧ f.IsReal T path start
      ∧ ∀ g ∈ below, g.IsReal T path start := by
  obtain ⟨done, rfl⟩ := exists_append_of_next? hnext
  obtain ⟨-, hrest⟩ := List.forall_mem_append.mp h
  obtain ⟨hf, hbelow⟩ := List.forall_mem_cons.mp hrest
  obtain ⟨htask, htasks⟩ := List.forall_mem_cons.mp hf.tasks
  exact ⟨htask, ⟨hf.suffix, htasks⟩, hbelow⟩

/-- **An expansion keeps what is real.** It leaves only items, cursors and frames that are, finds
only places that are reached, and fails only for an axis of the path that the tree lacks. -/
theorem IsReal.advance {s : Search N} (h : s.IsReal T path start) :
    (s.advance T path.names).IsReal T path start := by
  obtain ⟨arrived?, frames⟩ := s
  rcases arrived? with _ | ⟨item, _ | ⟨step, after⟩⟩
  · simp only [Search.advance]
    split
    · trivial
    · next mode item f below hnext =>
      obtain ⟨htask, hf, hbelow⟩ := IsReal.next h.frames hnext
      cases htask with
      | expand hm hi => exact hf.expand hbelow hi (.inl hm)
    · next mode item cursor f below hnext =>
      obtain ⟨htask, hf, hbelow⟩ := IsReal.next h.frames hnext
      cases htask with
      | resume hi hc =>
          exact isReal_of_frames (List.forall_mem_cons.mpr ⟨hf.push (hc.tasks hi), hbelow⟩)
  · obtain ⟨hi, -⟩ := h.arrived item [] rfl
    exact ⟨hi.reached, isReal_of_frames h.frames⟩
  · obtain ⟨hi, hsuffix⟩ := h.arrived item (step :: after) rfl
    exact (Frame.isReal_start hsuffix).expand h.frames hi (.inr rfl)

end Search

end JsonAxes
