import Indentation.Proofs.Text.Reindent
import Indentation.Proofs.Tree.Nested
import Indentation.Tree.Node
import Mathlib.Order.Monotone.Defs

/-!
# Trees that move along with their text

The tree of an edited text is taken to be the tree of the text with every boundary moved to where the
edits carry it.
-/

namespace Indentation

namespace Range

/-- The range between the images of the two ends. -/
def mapOffsets (f : Nat → Nat) (r : Range) : Range :=
  ⟨f r.start, max (f r.start) (f r.stop), Nat.le_max_left _ _⟩

variable {f : Nat → Nat}

@[simp] theorem start_mapOffsets (r : Range) : (r.mapOffsets f).start = f r.start := rfl

theorem stop_mapOffsets (hf : Monotone f) (r : Range) : (r.mapOffsets f).stop = f r.stop :=
  Nat.max_eq_right (hf r.start_le_stop)

theorem mapOffsets_id (r : Range) : r.mapOffsets id = r :=
  Range.ext rfl (Nat.max_eq_right r.start_le_stop)

end Range

namespace Label

def mapOffsets (f : Nat → Nat) (l : Label) : Label := { l with range := l.range.mapOffsets f }

end Label

namespace Node

mutual

/-- A tree with every boundary moved. -/
def mapOffsets (f : Nat → Nat) : Node → Node
  | .mk label children => .mk (label.mapOffsets f) (mapOffsetsAll f children)

def mapOffsetsAll (f : Nat → Nat) : List Node → List Node
  | [] => []
  | n :: rest => mapOffsets f n :: mapOffsetsAll f rest

end

/-- The tree of a text after edits from its end to its start. -/
def moved (es : List Edit) (tree : Node) : Node := tree.mapOffsets (Edit.moved es)

variable (f : Nat → Nat)

theorem mapOffsetsAll_eq (nodes : List Node) : mapOffsetsAll f nodes = nodes.map (mapOffsets f) := by
  induction nodes with
  | nil => rfl
  | cons n rest ih => rw [mapOffsetsAll, ih, List.map_cons]

@[simp] theorem label_mapOffsets (n : Node) : (n.mapOffsets f).label = n.label.mapOffsets f := by
  cases n
  rfl

@[simp] theorem children_mapOffsets (n : Node) :
    (n.mapOffsets f).children = n.children.map (mapOffsets f) := by
  cases n
  rw [mapOffsets, children, children, mapOffsetsAll_eq]

@[simp] theorem kind_mapOffsets (n : Node) : (n.mapOffsets f).kind = n.kind := by
  rw [kind, label_mapOffsets]
  rfl

@[simp] theorem range_mapOffsets (n : Node) : (n.mapOffsets f).range = n.range.mapOffsets f := by
  rw [range, label_mapOffsets]
  rfl

omit f in
mutual

/-- A tree whose boundaries stay is the same tree. -/
theorem mapOffsets_id (n : Node) : n.mapOffsets id = n := by
  obtain ⟨label, children⟩ := n
  rw [mapOffsets, mapOffsetsAll_id children]
  simp only [Label.mapOffsets, Range.mapOffsets_id]

theorem mapOffsetsAll_id (nodes : List Node) : mapOffsetsAll id nodes = nodes := by
  cases nodes with
  | nil => rfl
  | cons n rest => rw [mapOffsetsAll, mapOffsets_id n, mapOffsetsAll_id rest]

end

@[simp] theorem tainted_mapOffsets (n : Node) : (n.mapOffsets f).tainted = n.tainted := by
  rw [tainted, label_mapOffsets]
  rfl

end Node

end Indentation
