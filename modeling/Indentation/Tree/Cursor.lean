import Indentation.Tree.Node

/-! # Places in a tree -/

namespace Indentation

/-- One step down: the parent, the number of the child and the siblings after it. -/
structure Step where
  parent : Node
  index : Nat
  later : List Node
deriving Repr

/-- A node together with the way to it from the root, last step first. -/
structure Cursor where
  node : Node
  trail : List Step
deriving Repr

namespace Cursor

def root (tree : Node) : Cursor := ⟨tree, []⟩

/-- Child numbers along the way, last first. They tell the places of one tree apart. -/
def path (c : Cursor) : List Nat := c.trail.map Step.index

def samePlace (c d : Cursor) : Bool := c.path == d.path

def kind (c : Cursor) : String := c.node.kind
def range (c : Cursor) : Range := c.node.range
def named (c : Cursor) : Bool := c.node.named
def extra (c : Cursor) : Bool := c.node.extra

def parent? (c : Cursor) : Option Cursor :=
  match c.trail with
  | [] => none
  | step :: trail => some ⟨step.parent, trail⟩

def firstChild? (c : Cursor) : Option Cursor :=
  match c.node.children with
  | [] => none
  | n :: later => some ⟨n, ⟨c.node, 0, later⟩ :: c.trail⟩

def nextSibling? (c : Cursor) : Option Cursor :=
  match c.trail with
  | ⟨parent, index, n :: later⟩ :: trail => some ⟨n, ⟨parent, index + 1, later⟩ :: trail⟩
  | _ => none

/-- A child and the siblings after it. -/
def siblingsFrom (parent : Node) (trail : List Step) : Nat → List Node → List Cursor
  | _, [] => []
  | index, n :: later => ⟨n, ⟨parent, index, later⟩ :: trail⟩ :: siblingsFrom parent trail (index + 1) later

def children (c : Cursor) : List Cursor := siblingsFrom c.node c.trail 0 c.node.children

def namedChildren (c : Cursor) : List Cursor := c.children.filter Cursor.named

/-- Named children that belong to the construct: comments are left out. -/
def properChildren (c : Cursor) : List Cursor := c.namedChildren.filter fun d => !d.extra

/-- The first child that is only named by its text, if it has this text. -/
def tokenChild? (c : Cursor) (text : String) : Option Cursor :=
  c.children.find? fun d => !d.named && d.kind == text

def fieldChildren (c : Cursor) (field : String) : List Cursor :=
  c.children.filter fun d => d.node.label.field == some field

def fieldChild? (c : Cursor) (field : String) : Option Cursor :=
  c.children.find? fun d => d.node.label.field == some field

theorem size_le_of_mem_siblingsFrom {parent : Node} {trail : List Step} {index : Nat}
    {nodes : List Node} {d : Cursor} (h : d ∈ siblingsFrom parent trail index nodes) :
    d.node.size ≤ Node.sizeAll nodes := by
  induction nodes generalizing index with
  | nil => simp [siblingsFrom] at h
  | cons n later ih =>
    simp only [siblingsFrom, List.mem_cons] at h
    simp only [Node.sizeAll]
    rcases h with rfl | h
    · simp
    · have := ih h
      omega

theorem size_lt_of_mem_children {c d : Cursor} (h : d ∈ c.children) :
    d.node.size < c.node.size := by
  obtain ⟨⟨label, children⟩, trail⟩ := c
  have := size_le_of_mem_siblingsFrom h
  simp only [Node.size, Node.children] at *
  omega

theorem mem_children_of_mem_properChildren {c d : Cursor} (h : d ∈ c.properChildren) :
    d ∈ c.children := by
  simp only [properChildren, namedChildren, List.mem_filter] at h
  exact h.1.1

theorem size_lt_of_head_properChildren {c d : Cursor} (h : c.properChildren.head? = some d) :
    d.node.size < c.node.size :=
  size_lt_of_mem_children (mem_children_of_mem_properChildren (List.mem_of_mem_head? h))

theorem mem_children_of_fieldChild {c d : Cursor} {field : String} (h : c.fieldChild? field = some d) :
    d ∈ c.children := List.mem_of_find?_eq_some h

end Cursor

end Indentation
