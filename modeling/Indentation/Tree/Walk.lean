import Indentation.Tree.Cursor

/-! # Walks through a tree

Each walk is given twice: by recursion on the tree, and by a cursor that only moves to a first child,
a next sibling or a parent. -/

namespace Indentation

/-- Entering or leaving a node. -/
inductive Event where
  | enter (place : Cursor)
  | leave (place : Cursor)
deriving Repr

mutual

/-- Enter a node, walk through its children in order, leave it. -/
def Node.eventsAt (trail : List Step) : Node → List Event
  | .mk label children =>
    .enter ⟨.mk label children, trail⟩ ::
      (Node.eventsAmong (.mk label children) trail 0 children ++ [.leave ⟨.mk label children, trail⟩])

def Node.eventsAmong (parent : Node) (trail : List Step) : Nat → List Node → List Event
  | _, [] => []
  | index, n :: later =>
    Node.eventsAt (⟨parent, index, later⟩ :: trail) n ++
      Node.eventsAmong parent trail (index + 1) later

end

mutual

/-- A node before the nodes below it. -/
def Node.preorderAt (trail : List Step) : Node → List Cursor
  | .mk label children =>
    ⟨.mk label children, trail⟩ :: Node.preorderAmong (.mk label children) trail 0 children

def Node.preorderAmong (parent : Node) (trail : List Step) : Nat → List Node → List Cursor
  | _, [] => []
  | index, n :: later =>
    Node.preorderAt (⟨parent, index, later⟩ :: trail) n ++
      Node.preorderAmong parent trail (index + 1) later

end

namespace Node

def events (tree : Node) : List Event := tree.eventsAt []

def preorder (tree : Node) : List Cursor := tree.preorderAt []

end Node

namespace Cursor

/-- Nodes that follow a place and everything below it. -/
def pending (trail : List Step) : Nat :=
  match trail with
  | [] => 0
  | step :: trail => Node.sizeAll step.later + pending trail

/-- The first place after a whole subtree: the next sibling of it or of the nearest ancestor that
has one. -/
def skip? (trail : List Step) : Option Cursor :=
  match trail with
  | [] => none
  | ⟨parent, index, n :: later⟩ :: trail => some ⟨n, ⟨parent, index + 1, later⟩ :: trail⟩
  | ⟨_, _, []⟩ :: trail => skip? trail

/-- The place that comes next in preorder. -/
def next? (c : Cursor) : Option Cursor :=
  match c.firstChild? with
  | some d => some d
  | none => skip? c.trail

/-- Nodes from a place on. -/
def ahead (c : Cursor) : Nat := c.node.size + pending c.trail

theorem size_pos (n : Node) : 0 < n.size := by
  cases n
  simp [Node.size]

theorem ahead_firstChild {c d : Cursor} (h : c.firstChild? = some d) : d.ahead < c.ahead := by
  obtain ⟨⟨label, children⟩, trail⟩ := c
  cases children with
  | nil => simp [firstChild?, Node.children] at h
  | cons n later =>
    simp only [firstChild?, Node.children, Option.some.injEq] at h
    subst h
    simp only [ahead, pending, Node.size, Node.sizeAll]
    omega

theorem ahead_skip {trail : List Step} {d : Cursor} (h : skip? trail = some d) :
    d.ahead = pending trail := by
  fun_induction skip? trail with
  | case1 => simp at h
  | case2 parent index n later trail =>
    simp only [Option.some.injEq] at h
    subst h
    simp only [ahead, pending, Node.sizeAll]
    omega
  | case3 parent index trail ih => simpa [pending, Node.sizeAll] using ih h

theorem ahead_next {c d : Cursor} (h : c.next? = some d) : d.ahead < c.ahead := by
  unfold next? at h
  split at h
  · next e hc =>
    simp only [Option.some.injEq] at h
    subst h
    exact ahead_firstChild hc
  · have := ahead_skip h
    have := size_pos c.node
    simp only [ahead] at *
    omega

/-- The places that a cursor visits when it moves on in preorder until it cannot. -/
def tour (c : Cursor) : List Cursor :=
  match _h : c.next? with
  | none => [c]
  | some d => c :: tour d
termination_by c.ahead
decreasing_by exact ahead_next _h

/-- The first flaw from a place on. Subtrees without one are passed over. -/
def firstFlaw? (c : Cursor) : Option Cursor :=
  if c.node.isFlaw then some c
  else
    match _h : if c.node.tainted then c.next? else skip? c.trail with
    | none => none
    | some d => firstFlaw? d
termination_by c.ahead
decreasing_by
  split at _h
  · exact ahead_next _h
  · have := ahead_skip _h
    have := size_pos c.node
    simp only [ahead] at *
    omega

end Cursor

namespace Node

/-- Where the first flaw of a tree starts. -/
def firstFlaw? (tree : Node) : Option Nat :=
  (Cursor.root tree).firstFlaw?.map fun c => c.range.start

end Node

/-- A walk in progress: where the cursor is, and whether it is about to leave. -/
structure Walk where
  cursor : Cursor
  leaving : Bool
deriving Repr

namespace Walk

def start (tree : Node) : Walk := ⟨.root tree, false⟩

def event (w : Walk) : Event := if w.leaving then .leave w.cursor else .enter w.cursor

/-- Go on after an event. A node without children is left at once. -/
def advance? (w : Walk) : Option Walk :=
  if w.leaving then
    match w.cursor.nextSibling? with
    | some sibling => some ⟨sibling, false⟩
    | none => w.cursor.parent?.map (⟨·, true⟩)
  else
    match w.cursor.firstChild? with
    | some child => some ⟨child, false⟩
    | none => some ⟨w.cursor, true⟩

/-- Events that follow those of a node and below it. -/
def pending (trail : List Step) : Nat :=
  match trail with
  | [] => 0
  | step :: trail => 2 * Node.sizeAll step.later + 1 + pending trail

/-- Events from a point of the walk on. -/
def ahead (w : Walk) : Nat :=
  (if w.leaving then 1 else 2 * w.cursor.node.size) + pending w.cursor.trail

theorem ahead_advance {w v : Walk} (h : w.advance? = some v) : v.ahead < w.ahead := by
  obtain ⟨⟨⟨label, children⟩, trail⟩, leaving⟩ := w
  cases leaving with
  | false =>
    cases children with
    | nil =>
      simp only [advance?, Cursor.firstChild?, Node.children, Bool.false_eq_true, if_false,
        Option.some.injEq] at h
      subst h
      simp [ahead, Node.size, Node.sizeAll]
    | cons n later =>
      simp only [advance?, Cursor.firstChild?, Node.children, Bool.false_eq_true, if_false,
        Option.some.injEq] at h
      subst h
      simp only [ahead, pending, Node.size, Node.sizeAll, Bool.false_eq_true, if_false]
      omega
  | true =>
    cases trail with
    | nil => simp [advance?, Cursor.nextSibling?, Cursor.parent?] at h
    | cons step trail =>
      obtain ⟨parent, index, later⟩ := step
      cases later with
      | nil =>
        simp only [advance?, Cursor.nextSibling?, Cursor.parent?, if_true, Option.map_some,
          Option.some.injEq] at h
        subst h
        simp [ahead, pending, Node.sizeAll]
      | cons n later =>
        simp only [advance?, Cursor.nextSibling?, if_true, Option.some.injEq] at h
        subst h
        simp only [ahead, pending, Node.sizeAll, Bool.false_eq_true, if_false, if_true]
        omega

/-- All events of a walk from a point on. -/
def run (w : Walk) : List Event :=
  match _h : w.advance? with
  | none => [w.event]
  | some v => w.event :: run v
termination_by w.ahead
decreasing_by exact ahead_advance _h

end Walk

end Indentation
