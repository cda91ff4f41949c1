import Indentation.Construct.Owner
import Indentation.Proofs.Tree.Moved

/-!
# Places that move along with their text

A place of a moved tree is a place of the tree, moved.  Everything that is read off the shape of a
tree and the kinds of its nodes is the same for both.
-/

namespace Indentation

def Step.mapOffsets (f : Nat → Nat) (step : Step) : Step :=
  ⟨step.parent.mapOffsets f, step.index, step.later.map (Node.mapOffsets f)⟩

namespace Cursor

/-- The same place in a tree with every boundary moved. -/
def mapOffsets (f : Nat → Nat) (c : Cursor) : Cursor :=
  ⟨c.node.mapOffsets f, c.trail.map (Step.mapOffsets f)⟩

variable (f : Nat → Nat)

@[simp] theorem kind_mapOffsets (c : Cursor) : (c.mapOffsets f).kind = c.kind :=
  Node.kind_mapOffsets f c.node

@[simp] theorem range_mapOffsets (c : Cursor) : (c.mapOffsets f).range = c.range.mapOffsets f :=
  Node.range_mapOffsets f c.node

@[simp] theorem named_mapOffsets (c : Cursor) : (c.mapOffsets f).named = c.named := by
  rw [named, mapOffsets, Node.named, Node.label_mapOffsets]
  rfl

@[simp] theorem extra_mapOffsets (c : Cursor) : (c.mapOffsets f).extra = c.extra := by
  rw [extra, mapOffsets, Node.extra, Node.label_mapOffsets]
  rfl

@[simp] theorem field_mapOffsets (c : Cursor) :
    (c.mapOffsets f).node.label.field = c.node.label.field := by
  rw [mapOffsets, Node.label_mapOffsets]
  rfl

@[simp] theorem path_mapOffsets (c : Cursor) : (c.mapOffsets f).path = c.path := by
  simp only [path, mapOffsets, List.map_map]
  rfl

@[simp] theorem samePlace_mapOffsets (c d : Cursor) :
    (c.mapOffsets f).samePlace (d.mapOffsets f) = c.samePlace d := by
  simp only [samePlace, path_mapOffsets]

theorem siblingsFrom_mapOffsets (parent : Node) (trail : List Step) (index : Nat)
    (nodes : List Node) :
    siblingsFrom (parent.mapOffsets f) (trail.map (Step.mapOffsets f)) index
        (nodes.map (Node.mapOffsets f)) =
      (siblingsFrom parent trail index nodes).map (mapOffsets f) := by
  induction nodes generalizing index with
  | nil => rfl
  | cons n later ih =>
    rw [List.map_cons, siblingsFrom, siblingsFrom, List.map_cons, ih]
    rfl

@[simp] theorem children_mapOffsets (c : Cursor) :
    (c.mapOffsets f).children = c.children.map (mapOffsets f) := by
  rw [children, children, ← siblingsFrom_mapOffsets]
  simp only [mapOffsets, Node.children_mapOffsets]

@[simp] theorem properChildren_mapOffsets (c : Cursor) :
    (c.mapOffsets f).properChildren = c.properChildren.map (mapOffsets f) := by
  simp only [properChildren, namedChildren, children_mapOffsets, List.filter_map]
  congr 2
  · funext d
    simp
  · congr 1
    funext d
    simp

@[simp] theorem tokenChild?_mapOffsets (c : Cursor) (text : String) :
    (c.mapOffsets f).tokenChild? text = (c.tokenChild? text).map (mapOffsets f) := by
  rw [tokenChild?, tokenChild?, children_mapOffsets, List.find?_map]
  congr 2
  funext d
  simp

@[simp] theorem fieldChildren_mapOffsets (c : Cursor) (field : String) :
    (c.mapOffsets f).fieldChildren field = (c.fieldChildren field).map (mapOffsets f) := by
  rw [fieldChildren, fieldChildren, children_mapOffsets, List.filter_map]
  congr 2
  funext d
  simp

@[simp] theorem fieldChild?_mapOffsets (c : Cursor) (field : String) :
    (c.mapOffsets f).fieldChild? field = (c.fieldChild? field).map (mapOffsets f) := by
  rw [fieldChild?, fieldChild?, children_mapOffsets, List.find?_map]
  congr 2
  funext d
  simp

@[simp] theorem parent?_mapOffsets (c : Cursor) :
    (c.mapOffsets f).parent? = c.parent?.map (mapOffsets f) := by
  obtain ⟨node, trail⟩ := c
  cases trail <;> rfl

@[simp] theorem firstChild?_mapOffsets (c : Cursor) :
    (c.mapOffsets f).firstChild? = c.firstChild?.map (mapOffsets f) := by
  rw [firstChild?_eq, firstChild?_eq, children_mapOffsets, List.head?_map]

theorem ownerAlong_mapOffsets (trail : List Step) :
    ownerAlong (trail.map (Step.mapOffsets f)) = (ownerAlong trail).map (mapOffsets f) := by
  induction trail with
  | nil => rfl
  | cons step trail ih =>
    rw [List.map_cons, ownerAlong, ownerAlong, ih]
    simp only [Step.mapOffsets, Node.kind_mapOffsets]
    split <;> rfl

@[simp] theorem owner?_mapOffsets (c : Cursor) :
    (c.mapOffsets f).owner? = c.owner?.map (mapOffsets f) := ownerAlong_mapOffsets f c.trail

@[simp] theorem bare_mapOffsets (c : Cursor) :
    (c.mapOffsets f).bare = c.bare.mapOffsets f := by
  fun_induction bare c with
  | case1 c hkind inner hinner ih =>
    rw [bare, if_pos (by simpa using hkind)]
    split
    · next d hd =>
      obtain rfl : inner.mapOffsets f = d := by simpa [hinner] using hd
      exact ih
    · next hd => simp [hinner] at hd
  | case2 c hkind hinner =>
    rw [bare, if_pos (by simpa using hkind)]
    split
    · next d hd => simp [hinner] at hd
    · rfl
  | case3 c hkind => rw [bare, if_neg (by simpa using hkind)]

@[simp] theorem runsOperand_mapOffsets (c : Cursor) : (c.mapOffsets f).runsOperand = c.runsOperand := by
  have hoperator : (c.mapOffsets f).operator? = c.operator? := by
    simp only [operator?, fieldChild?_mapOffsets, Option.map_map]
    congr 1
    funext d
    exact kind_mapOffsets f d
  simp only [runsOperand, kind_mapOffsets, hoperator]

theorem statementAlong_mapOffsets (trail : List Step) :
    statementAlong (trail.map (Step.mapOffsets f)) = (statementAlong trail).map (mapOffsets f) := by
  induction trail with
  | nil => rfl
  | cons step trail ih =>
    have hruns := runsOperand_mapOffsets f ⟨step.parent, trail⟩
    have hkind := kind_mapOffsets f ⟨step.parent, trail⟩
    rw [mapOffsets] at hruns hkind
    simp only [List.map_cons, statementAlong, ih, Step.mapOffsets, hruns, hkind]
    split <;> rfl

@[simp] theorem isTopStatement_mapOffsets (c : Cursor) :
    (c.mapOffsets f).isTopStatement = c.isTopStatement := by
  simp [isTopStatement, Option.any_map]

@[simp] theorem isOuterCall_mapOffsets (c : Cursor) : (c.mapOffsets f).isOuterCall = c.isOuterCall := by
  rw [isOuterCall, isOuterCall, owner?_mapOffsets]
  cases c.owner? with
  | none => rfl
  | some call =>
    have htrail : (call.mapOffsets f).trail = call.trail.map (Step.mapOffsets f) := rfl
    simp [htrail, statementAlong_mapOffsets, Option.any_map]

end Cursor

def Event.mapOffsets (f : Nat → Nat) : Event → Event
  | .enter c => .enter (c.mapOffsets f)
  | .leave c => .leave (c.mapOffsets f)

/-- A walk through a moved tree is a walk through the tree, moved. -/
theorem Cursor.events_mapOffsets (f : Nat → Nat) (c : Cursor) :
    (c.mapOffsets f).events = c.events.map (Event.mapOffsets f) := by
  induction hn : c.node.size using Nat.strongRecOn generalizing c with
  | _ n ih =>
    have hchildren : (c.children.map (mapOffsets f)).flatMap events =
        (c.children.flatMap events).map (Event.mapOffsets f) := by
      rw [List.flatMap_map, List.map_flatMap]
      refine List.flatMap_congr fun d hd => ?_
      exact ih _ (hn ▸ size_lt_of_mem_children hd) d rfl
    rw [events_eq, events_eq c, children_mapOffsets, hchildren, List.map_cons, List.map_append]
    rfl

theorem Node.events_mapOffsets (f : Nat → Nat) (tree : Node) :
    (tree.mapOffsets f).events = tree.events.map (Event.mapOffsets f) :=
  Cursor.events_mapOffsets f (.root tree)

/-- The places of a moved tree are those of the tree, moved. -/
theorem Node.exists_of_mem_preorder_mapOffsets {f : Nat → Nat} {tree : Node} {c : Cursor}
    (h : c ∈ (tree.mapOffsets f).preorder) : ∃ d ∈ tree.preorder, c = d.mapOffsets f := by
  have hreach := mem_preorder_iff.1 h
  clear h
  induction hreach with
  | refl => exact ⟨.root tree, mem_preorder_iff.2 (.refl _), rfl⟩
  | @tail b c _ hbc ih =>
    obtain ⟨d, hd, rfl⟩ := ih
    rw [Cursor.children_mapOffsets] at hbc
    obtain ⟨e, he, rfl⟩ := List.mem_map.1 hbc
    exact ⟨e, mem_preorder_of_child hd he, rfl⟩

theorem Node.mem_preorder_mapOffsets {tree : Node} {c : Cursor} (f : Nat → Nat)
    (h : c ∈ tree.preorder) : c.mapOffsets f ∈ (tree.mapOffsets f).preorder := by
  have hreach := mem_preorder_iff.1 h
  clear h
  induction hreach with
  | refl => exact mem_preorder_iff.2 (.refl _)
  | tail _ hbc ih =>
    refine mem_preorder_of_child ih ?_
    rw [Cursor.children_mapOffsets]
    exact List.mem_map_of_mem hbc

/-- Ranges stay nested when boundaries keep their order. -/
theorem Node.Nested.mapOffsets {f : Nat → Nat} {tree : Node} (h : tree.Nested) (hf : Monotone f) :
    (tree.mapOffsets f).Nested where
  inside := by
    intro _ hmem _ hchild
    obtain ⟨c, hc, rfl⟩ := exists_of_mem_preorder_mapOffsets hmem
    rw [Cursor.children_mapOffsets] at hchild
    obtain ⟨d, hd, rfl⟩ := List.mem_map.1 hchild
    have := h.inside c hc d hd
    simp only [Cursor.range_mapOffsets, Range.start_mapOffsets, Range.stop_mapOffsets hf]
    exact ⟨hf this.1, hf this.2⟩
  ordered := by
    intro _ hmem
    obtain ⟨c, hc, rfl⟩ := exists_of_mem_preorder_mapOffsets hmem
    rw [Cursor.children_mapOffsets]
    refine List.pairwise_map.2 ((h.ordered c hc).imp fun {d e} hde => ?_)
    simp only [Cursor.range_mapOffsets, Range.start_mapOffsets, Range.stop_mapOffsets hf]
    exact hf hde

end Indentation
