import JsonAxes.Path.Basic
import JsonAxes.Tree.Basic

/-!
# Searches

A search looks for the nodes that a path leads to, one small expansion at a time, so that
the first match is there before the others are looked for and no axis is ever gathered in full.

A node that has passed some steps of the path *arrives* at the next. There a *frame* is opened for
it: it holds the step, the steps behind it, how many candidates have passed the step's test so
far, and the tasks that are left. A task is to expand an item along a mode, or to go on with an item
that is expanded in part, by the *cursor* through the children of some node. Expanding an item along
the self axis tests it, and if it passes it arrives at the next step; every other expansion leads to
further tasks. The frames form a stack, and a frame is returned to when everything that came of its
candidates is done. A node that arrives with no step left is a match.

`Search.advance` performs one expansion.
-/

set_option autoImplicit false

namespace JsonAxes

universe u

/-- How an item is expanded: along an axis, or along one of the halves that the axes `following`
and `preceding` are made of. -/
inductive Mode where
  | along (axis : Axis)
  /-- The later siblings, each with its whole subtree. -/
  | followingSubtrees
  /-- The earlier siblings, each with its whole subtree. -/
  | precedingSubtrees
  deriving DecidableEq, Repr

/-- A place, and the number of its node's tag in the path's names, once it has been looked up. -/
structure Item (N : Type u) where
  place : Place N
  tag? : Option (Option Nat)

/-- The children of a node that are still to be visited. -/
structure Cursor (N : Type u) where
  /-- Where the node is. -/
  owner : Place N
  /-- The index of the next child. -/
  index : Nat
  /-- Where there is one, the index from which on children are not visited. -/
  stop? : Option Nat
  /-- The children from the index of the next one on. -/
  rest : List N
  /-- How each child is expanded. -/
  emit : Mode

/-- What is left to do within a step. -/
inductive Task (N : Type u) where
  | expand (mode : Mode) (item : Item N)
  /-- To go on with an item whose expansion along a mode has come as far as a cursor. -/
  | resume (mode : Mode) (item : Item N) (cursor : Cursor N)

/-- A step in progress from one node. -/
structure Frame (N : Type u) where
  step : Step
  /-- The steps behind it. -/
  after : List Step
  /-- How many candidates have passed the step's test. -/
  passed : Nat
  /-- What is left to do, the next task first. -/
  tasks : List (Task N)

/-- The state of a search. -/
structure Search (N : Type u) where
  /-- A node that has arrived at the steps given with it. -/
  arrived? : Option (Item N × List Step)
  /-- The steps in progress, the latest first. -/
  frames : List (Frame N)

variable {N : Type u}

namespace Item

/-- An item whose tag has not been looked up. -/
def fresh (place : Place N) : Item N := ⟨place, none⟩

/-- The number of an item's tag. -/
def tagNumber (T : Tree N) (names : NameTable) (item : Item N) : Option Nat :=
  item.tag?.getD (names.lookup? (T.tag item.place.node))

/-- Whether an item passes a test, and the item with what was looked up for it. -/
def check (T : Tree N) (names : NameTable) (test : NodeTest) (item : Item N) : Bool × Item N :=
  match test with
  | .wildcard => (true, item)
  | .node => (true, item)
  | .name id =>
    let tag := item.tagNumber T names
    (tag == some id, { item with tag? := some tag })

end Item

namespace Cursor

/-- A cursor before the first child of a node. -/
def children (T : Tree N) (owner : Place N) (emit : Mode) : Cursor N :=
  ⟨owner, 0, none, T.children owner.node, emit⟩

/-- A cursor through the siblings before a child. -/
def before (T : Tree N) (owner : Place N) (index : Nat) (emit : Mode) : Cursor N :=
  ⟨owner, 0, some index, T.children owner.node, emit⟩

/-- A cursor through the siblings behind a child. -/
def behind (T : Tree N) (owner : Place N) (index : Nat) (emit : Mode) : Cursor N :=
  ⟨owner, index + 1, none, (T.children owner.node).drop (index + 1), emit⟩

/-- Whether a cursor has come to where it stops. -/
def isStopped (cursor : Cursor N) : Bool := cursor.stop?.any (· ≤ cursor.index)

/-- A cursor behind its next child, given the children behind that. -/
def step (cursor : Cursor N) (rest : List N) : Cursor N :=
  { cursor with index := cursor.index + 1, rest }

/-- The next child's task, and then that of going on with the item that is expanded along a mode;
none when no child is left to be visited. -/
def tasks (cursor : Cursor N) (mode : Mode) (item : Item N) : List (Task N) :=
  if cursor.isStopped then []
  else match cursor.rest with
    | [] => []
    | child :: rest =>
      [.expand cursor.emit (.fresh (cursor.owner.child cursor.index child)),
        .resume mode item (cursor.step rest)]

end Cursor

namespace Item

/-- The tasks of expanding an item along a mode by a cursor through its siblings; an item without an
index has none. -/
def siblingTasks (item : Item N) (mode : Mode) (cursor : Place N → Nat → Cursor N) :
    List (Task N) :=
  match item.place with
  | .within owner (some index) _ => (cursor owner index).tasks mode item
  | _ => []

/-- The task of expanding the item above, if there is one. -/
def upTasks (T : Tree N) (item : Item N) (mode : Mode) : List (Task N) :=
  match item.place.up? T with
  | some place => [.expand mode (.fresh place)]
  | none => []

/-- The task of testing an attribute that was looked up. -/
def attributeTasks (T : Tree N) (item : Item N) (name : String) : List (Task N) :=
  match T.attribute? item.place.node name with
  | some node => [.expand (.along .self) (.fresh (item.place.attr node))]
  | none => []

/-- The names of the attributes that a test can pass. -/
def attributesFor (T : Tree N) (names : NameTable) (test : NodeTest) (item : Item N) :
    List String :=
  match test with
  | .name id => (names.resolve? id).toList
  | .wildcard => T.attributeNames item.place.node
  | .node => T.attributeNames item.place.node

/-- What expanding an item leads to, in the order in which it is to be done; or the axis that the
tree does not support. An item on the self axis is tested instead. -/
def expansion (T : Tree N) (names : NameTable) (test : NodeTest) (item : Item N) :
    Mode → Except Axis (List (Task N))
  | .along .self => .ok []
  | .along .child =>
    .ok ((Cursor.children T item.place (.along .self)).tasks (.along .child) item)
  | .along .descendant =>
    .ok ((Cursor.children T item.place (.along .descendantOrSelf)).tasks (.along .descendant) item)
  | .along .descendantOrSelf =>
    .ok [.expand (.along .self) item, .expand (.along .descendant) item]
  | .along .parent => .ok (item.upTasks T (.along .self))
  | .along .ancestor => .ok (item.upTasks T (.along .ancestorOrSelf))
  | .along .ancestorOrSelf =>
    .ok [.expand (.along .self) item, .expand (.along .ancestor) item]
  | .along .followingSibling =>
    .ok (item.siblingTasks (.along .followingSibling) fun owner i =>
      Cursor.behind T owner i (.along .self))
  | .along .precedingSibling =>
    .ok (item.siblingTasks (.along .precedingSibling) fun owner i =>
      Cursor.before T owner i (.along .self))
  | .followingSubtrees =>
    .ok (item.siblingTasks .followingSubtrees fun owner i =>
      Cursor.behind T owner i (.along .descendantOrSelf))
  | .precedingSubtrees =>
    .ok (item.siblingTasks .precedingSubtrees fun owner i =>
      Cursor.before T owner i (.along .descendantOrSelf))
  -- document order: the siblings' subtrees are nearer than those behind the parent
  | .along .following =>
    .ok (.expand .followingSubtrees item :: item.upTasks T (.along .following))
  -- document order again, so those before the parent come first
  | .along .preceding =>
    .ok (item.upTasks T (.along .preceding) ++ [.expand .precedingSubtrees item])
  | .along .attributes =>
    if T.hasAttributes then .ok ((item.attributesFor T names test).flatMap (item.attributeTasks T))
    else .error .attributes
  | .along .namespaces => .error .namespaces

end Item

/-! ## One expansion -/

/-- What came of one expansion. -/
inductive Advance (N : Type u) where
  /-- Nothing was left to do. -/
  | exhausted
  /-- The search goes on. -/
  | moved (s : Search N)
  /-- A match was found, and the search goes on. -/
  | matched (place : Place N) (s : Search N)
  /-- The tree does not support an axis. -/
  | failed (axis : Axis)

namespace Frame

/-- The frame of a step at which a node has arrived. -/
def start (step : Step) (after : List Step) : Frame N := ⟨step, after, 0, []⟩

/-- A frame with more tasks to be done first. -/
def push (f : Frame N) (tasks : List (Task N)) : Frame N := { f with tasks := tasks ++ f.tasks }

/-- Tests an item that is a candidate of a frame's step; if it passes and is at the position
asked for, it arrives at the steps behind. -/
def test (T : Tree N) (names : NameTable) (f : Frame N) (item : Item N) (below : List (Frame N)) :
    Search N :=
  let (passes, item) := item.check T names f.step.test
  if passes then
    -- positions count the candidates that pass, in the order in which they come
    let passed := f.passed + 1
    let wanted := f.step.position?.all (· == passed)
    ⟨if wanted then some (item, f.after) else none, { f with passed } :: below⟩
  else ⟨none, f :: below⟩

/-- Expands an item within a frame. -/
def expand (T : Tree N) (names : NameTable) (f : Frame N) (mode : Mode) (item : Item N)
    (below : List (Frame N)) : Advance N :=
  if mode = .along .self then .moved (f.test T names item below)
  else
    match item.expansion T names f.step.test mode with
    | .ok tasks => .moved ⟨none, f.push tasks :: below⟩
    | .error axis => .failed axis

end Frame

namespace Search

/-- A search for a path from a node. -/
def start (steps : List Step) (node : N) : Search N := ⟨some (.fresh (.root node), steps), []⟩

/-- A search with nothing left to do. -/
def finished : Search N := ⟨none, []⟩

/-- The next task, its frame without the task, and the frames below; frames without tasks are
left behind. -/
def next? : List (Frame N) → Option (Task N × Frame N × List (Frame N))
  | [] => none
  | f :: below =>
    match f.tasks with
    | [] => next? below
    | task :: tasks => some (task, { f with tasks }, below)

/-- Whether there is nothing left to do. -/
def isExhausted (s : Search N) : Bool := s.arrived?.isNone && s.frames.all (·.tasks.isEmpty)

/-- Performs one expansion. -/
def advance (T : Tree N) (names : NameTable) (s : Search N) : Advance N :=
  match s.arrived? with
  | some (item, []) => .matched item.place ⟨none, s.frames⟩
  | some (item, step :: after) =>
    (Frame.start step after).expand T names (.along step.axis) item s.frames
  | none =>
    match next? s.frames with
    | none => .exhausted
    | some (.expand mode item, f, below) => f.expand T names mode item below
    | some (.resume mode item cursor, f, below) =>
      .moved ⟨none, f.push (cursor.tasks mode item) :: below⟩

end Search

end JsonAxes
