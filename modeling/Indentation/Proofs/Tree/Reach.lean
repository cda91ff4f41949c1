import Indentation.Tree.Walk
import Mathlib.Data.List.Basic
import Mathlib.Data.List.Pairwise
import Mathlib.Logic.Relation

/-!
# Places below a place

A walk through a tree and the tree in preorder are read off the children of a place.  What a walk
does after a place is done with places that come later, or leaves places above it.
-/

namespace Indentation

namespace Cursor

/-- What a walk does from entering a place to leaving it. -/
def events (c : Cursor) : List Event := c.node.eventsAt c.trail

/-- A place and those below it in preorder. -/
def preorder (c : Cursor) : List Cursor := c.node.preorderAt c.trail

/-- Go down any number of steps. -/
def Reaches : Cursor → Cursor → Prop := Relation.ReflTransGen fun c d => d ∈ c.children

theorem eventsAmong_eq (parent : Node) (trail : List Step) (index : Nat) (nodes : List Node) :
    Node.eventsAmong parent trail index nodes =
      (siblingsFrom parent trail index nodes).flatMap events := by
  induction nodes generalizing index with
  | nil => rfl
  | cons n later ih => rw [Node.eventsAmong, ih, siblingsFrom, List.flatMap_cons, events]

theorem preorderAmong_eq (parent : Node) (trail : List Step) (index : Nat) (nodes : List Node) :
    Node.preorderAmong parent trail index nodes =
      (siblingsFrom parent trail index nodes).flatMap preorder := by
  induction nodes generalizing index with
  | nil => rfl
  | cons n later ih => rw [Node.preorderAmong, ih, siblingsFrom, List.flatMap_cons, preorder]

theorem events_eq (c : Cursor) :
    c.events = .enter c :: (c.children.flatMap events ++ [.leave c]) := by
  obtain ⟨⟨label, children⟩, trail⟩ := c
  rw [events, Node.eventsAt, eventsAmong_eq]
  rfl

theorem preorder_eq (c : Cursor) : c.preorder = c :: c.children.flatMap preorder := by
  obtain ⟨⟨label, children⟩, trail⟩ := c
  rw [preorder, Node.preorderAt, preorderAmong_eq]
  rfl

/-- What holds of a place if it holds of its children holds of every place. -/
theorem induction_children {P : Cursor → Prop} (h : ∀ c : Cursor, (∀ d ∈ c.children, P d) → P c)
    (c : Cursor) : P c := by
  induction hn : c.node.size using Nat.strongRecOn generalizing c with
  | _ n ih => exact h c fun d hd => ih _ (hn ▸ size_lt_of_mem_children hd) d rfl

theorem parent?_of_mem_siblingsFrom {parent : Node} {trail : List Step} {index : Nat}
    {nodes : List Node} {d : Cursor} (h : d ∈ siblingsFrom parent trail index nodes) :
    d.parent? = some ⟨parent, trail⟩ := by
  induction nodes generalizing index with
  | nil => cases h
  | cons n later ih =>
    rcases List.mem_cons.1 h with rfl | h
    · rfl
    · exact ih h

theorem parent?_of_mem_children {c d : Cursor} (h : d ∈ c.children) : d.parent? = some c :=
  parent?_of_mem_siblingsFrom h

theorem firstChild?_eq (c : Cursor) : c.firstChild? = c.children.head? := by
  obtain ⟨⟨label, children⟩, trail⟩ := c
  cases children <;> rfl

theorem mem_siblingsFrom_of_nextSibling {parent : Node} {trail : List Step} {index : Nat}
    {nodes : List Node} {c d : Cursor} (hc : c ∈ siblingsFrom parent trail index nodes)
    (h : c.nextSibling? = some d) : d ∈ siblingsFrom parent trail index nodes := by
  induction nodes generalizing index with
  | nil => cases hc
  | cons n later ih =>
    refine List.mem_cons_of_mem _ ?_
    rcases List.mem_cons.1 hc with rfl | hc
    · cases later with
      | nil => cases h
      | cons m rest =>
        rw [← Option.some.inj h]
        exact List.mem_cons_self
    · exact ih hc

/-! ## Places of siblings -/

section Siblings

variable {parent : Node} {trail : List Step} {index : Nat} {nodes : List Node} {c d : Cursor}

theorem le_of_mem_siblingsFrom (h : d ∈ siblingsFrom parent trail index nodes) :
    ∃ i, d.path = i :: trail.map Step.index ∧ index ≤ i := by
  induction nodes generalizing index with
  | nil => cases h
  | cons n later ih =>
    rcases List.mem_cons.1 h with rfl | h
    · exact ⟨index, rfl, Nat.le_refl index⟩
    · obtain ⟨i, hpath, hle⟩ := ih h
      exact ⟨i, hpath, Nat.le_of_succ_le hle⟩

/-- Different siblings are at different places. -/
theorem pairwise_path_siblingsFrom (parent : Node) (trail : List Step) (index : Nat) (nodes : List Node) :
    (siblingsFrom parent trail index nodes).Pairwise fun c d => c.path ≠ d.path := by
  induction nodes generalizing index with
  | nil => exact .nil
  | cons n later ih =>
    refine .cons (fun d hd hpath => ?_) (ih (index + 1))
    obtain ⟨i, hd, hle⟩ := le_of_mem_siblingsFrom hd
    obtain ⟨rfl, -⟩ := List.cons.inj (hpath.trans hd)
    exact Nat.not_succ_le_self index hle

theorem nodup_children (c : Cursor) : c.children.Nodup :=
  (pairwise_path_siblingsFrom c.node c.trail 0 c.node.children).imp fun hpath heq =>
    hpath (congrArg path heq)

theorem samePlace_iff_of_children {b : Cursor} (hc : c ∈ b.children) (hd : d ∈ b.children) :
    c.samePlace d = true ↔ c = d := by
  refine ⟨fun h => ?_, fun h => ?_⟩
  · have : Std.Symm fun c d : Cursor => c.path ≠ d.path := ⟨fun _ _ h => Ne.symm h⟩
    by_contra hne
    exact (pairwise_path_siblingsFrom b.node b.trail 0 b.node.children).forall hc hd hne
      (beq_iff_eq.1 h)
  · rw [h, samePlace, beq_self_eq_true]

end Siblings

namespace Reaches

theorem refl (c : Cursor) : Reaches c c := Relation.ReflTransGen.refl

theorem child {c d : Cursor} (h : d ∈ c.children) : Reaches c d := .single h

theorem trans {b c d : Cursor} (h₁ : Reaches b c) (h₂ : Reaches c d) : Reaches b d :=
  Relation.ReflTransGen.trans h₁ h₂

/-- Either nothing is between two places, or a child of the first one is. -/
theorem cases_child {c d : Cursor} (h : Reaches c d) :
    c = d ∨ ∃ e ∈ c.children, Reaches e d := by
  rcases Relation.ReflTransGen.cases_head h with h | ⟨e, he, h⟩
  · exact .inl h
  · exact .inr ⟨e, he, h⟩

theorem size_le {c d : Cursor} (h : Reaches c d) : d.node.size ≤ c.node.size := by
  induction h with
  | refl => exact Nat.le_refl _
  | tail _ hd ih => exact Nat.le_of_lt (Nat.lt_of_lt_of_le (size_lt_of_mem_children hd) ih)

/-- Places that reach each other are the same. -/
theorem antisymm {c d : Cursor} (h₁ : Reaches c d) (h₂ : Reaches d c) : c = d := by
  rcases h₁.cases_child with h | ⟨e, he, h⟩
  · exact h
  · have := size_lt_of_mem_children he
    have := h.size_le
    have := h₂.size_le
    omega

/-- A place above another one is above its parent as well. -/
theorem to_parent {b c d : Cursor} (h : Reaches b d) (hne : b ≠ d) (hd : d ∈ c.children) :
    Reaches b c := by
  rcases Relation.ReflTransGen.cases_tail h with heq | ⟨e, hbe, hed⟩
  · exact absurd heq.symm hne
  · have hparent := (parent?_of_mem_children hed).symm.trans (parent?_of_mem_children hd)
    obtain rfl : e = c := by simpa using hparent
    exact hbe

end Reaches

theorem mem_preorder_iff {c d : Cursor} : d ∈ c.preorder ↔ Reaches c d := by
  constructor
  · induction c using induction_children with
    | h c ih =>
      intro h
      rw [preorder_eq] at h
      rcases List.mem_cons.1 h with rfl | h
      · exact .refl d
      · obtain ⟨e, he, hd⟩ := List.mem_flatMap.1 h
        exact (Reaches.child he).trans (ih e he hd)
  · intro h
    induction h using Relation.ReflTransGen.head_induction_on with
    | refl =>
      rw [preorder_eq]
      exact List.mem_cons_self
    | head hd _ ih =>
      rw [preorder_eq]
      exact List.mem_cons_of_mem _ (List.mem_flatMap.2 ⟨_, hd, ih⟩)

end Cursor

namespace Event

def place : Event → Cursor
  | .enter c => c
  | .leave c => c

end Event

namespace Cursor

/-- A walk below a place is at places that can be reached from it. -/
theorem reaches_of_mem_events {c : Cursor} {e : Event} (h : e ∈ c.events) : Reaches c e.place := by
  induction c using induction_children with
  | h c ih =>
    rw [events_eq] at h
    rcases List.mem_cons.1 h with rfl | h
    · exact .refl c
    · rcases List.mem_append.1 h with h | h
      · obtain ⟨d, hd, he⟩ := List.mem_flatMap.1 h
        exact (Reaches.child hd).trans (ih d hd he)
      · rw [List.mem_singleton.1 h]
        exact .refl c

/-- What a walk below `r` does after the events of a place: it is at a place below a later sibling of
the place or of one above it, or it leaves a place above it. -/
def Follows (r c : Cursor) (e : Event) : Prop :=
  (∃ b p d : Cursor, Reaches r b ∧ p ∈ b.children ∧ d ∈ b.children ∧ Reaches p c ∧ Reaches d e.place ∧
    ∃ before after, b.children = before ++ after ∧ p ∈ before ∧ d ∈ after) ∨
  ∃ b : Cursor, e = .leave b ∧ b ≠ c ∧ Reaches b c

/-- The events of a place are consecutive in those of any place above it. -/
theorem Reaches.events_split {c d : Cursor} (h : Reaches c d) :
    ∃ pre post, c.events = pre ++ d.events ++ post ∧
      ∀ e ∈ post, Follows c d e := by
  induction h with
  | refl => exact ⟨[], [], by simp, fun e he => by cases he⟩
  | @tail d e h he ih =>
    obtain ⟨pre, post, hc, hpost⟩ := ih
    obtain ⟨before, after, hd⟩ := List.append_of_mem he
    refine ⟨pre ++ .enter d :: before.flatMap events,
      after.flatMap events ++ .leave d :: post, ?_, fun x hx => ?_⟩
    · rw [hc, events_eq d, hd, List.flatMap_append, List.flatMap_cons]
      simp
    · have hne : d ≠ e := by
        rintro rfl
        exact Nat.lt_irrefl _ (size_lt_of_mem_children he)
      rcases List.mem_append.1 hx with hx | hx
      · obtain ⟨f, hf, hx⟩ := List.mem_flatMap.1 hx
        have hfd : f ∈ d.children := hd ▸ List.mem_append_right _ (List.mem_cons_of_mem _ hf)
        exact .inl ⟨d, e, f, h, he, hfd, .refl e, reaches_of_mem_events hx, before ++ [e], after,
          by simpa using hd, by simp, hf⟩
      · rcases List.mem_cons.1 hx with rfl | hx
        · exact .inr ⟨d, rfl, hne, .child he⟩
        · rcases hpost x hx with ⟨b, p, f, hcb, hp, hf, hpd, hfx, h⟩ | ⟨b, rfl, hb, hbd⟩
          · exact .inl ⟨b, p, f, hcb, hp, hf, hpd.trans (.child he), hfx, h⟩
          · refine .inr ⟨b, rfl, ?_, hbd.trans (.child he)⟩
            rintro rfl
            exact hne (hbd.antisymm (.child he)).symm

end Cursor

namespace Node

theorem events_eq (tree : Node) : tree.events = (Cursor.root tree).events := rfl

theorem mem_preorder_iff {tree : Node} {c : Cursor} :
    c ∈ tree.preorder ↔ Cursor.Reaches (.root tree) c :=
  Cursor.mem_preorder_iff (c := .root tree)

theorem mem_preorder_of_reaches {tree : Node} {c d : Cursor} (hc : c ∈ tree.preorder)
    (h : Cursor.Reaches c d) : d ∈ tree.preorder :=
  mem_preorder_iff.2 ((mem_preorder_iff.1 hc).trans h)

theorem mem_preorder_of_child {tree : Node} {c d : Cursor} (hc : c ∈ tree.preorder)
    (h : d ∈ c.children) : d ∈ tree.preorder := mem_preorder_of_reaches hc (.child h)

/-! ## Steps of a cursor -/

variable {tree : Node} {c d : Cursor}

/-- A cursor moves up to the place whose child it is at. -/
theorem mem_preorder_of_parent (hc : c ∈ tree.preorder) (h : c.parent? = some d) :
    d ∈ tree.preorder ∧ c ∈ d.children := by
  cases mem_preorder_iff.1 hc with
  | refl => cases h
  | @tail b _ hb hbc =>
    obtain rfl : b = d := Option.some.inj ((Cursor.parent?_of_mem_children hbc).symm.trans h)
    exact ⟨mem_preorder_iff.2 hb, hbc⟩

theorem mem_preorder_of_skip {node : Node} {trail : List Step} (hc : ⟨node, trail⟩ ∈ tree.preorder)
    (h : Cursor.skip? trail = some d) : d ∈ tree.preorder := by
  fun_induction Cursor.skip? trail generalizing node with
  | case1 => cases h
  | case2 parent index n later trail =>
    obtain ⟨hp, hmem⟩ := mem_preorder_of_parent (d := ⟨parent, trail⟩) hc rfl
    exact mem_preorder_of_child hp (Cursor.mem_siblingsFrom_of_nextSibling hmem h)
  | case3 parent index trail ih =>
    exact ih (mem_preorder_of_parent (d := ⟨parent, trail⟩) hc rfl).1 h

/-- A flaw that is found is in the tree. -/
theorem mem_preorder_of_firstFlaw (hc : c ∈ tree.preorder) (h : c.firstFlaw? = some d) :
    d ∈ tree.preorder := by
  fun_induction Cursor.firstFlaw? c with
  | case1 c hflaw =>
    obtain rfl : c = d := Option.some.inj h
    exact hc
  | case2 c hflaw hnone => cases h
  | case3 c hflaw e he ih =>
    refine ih ?_ h
    split at he
    · rw [Cursor.next?] at he
      split at he
      · next f hf =>
        obtain rfl : f = e := Option.some.inj he
        rw [Cursor.firstChild?_eq] at hf
        exact mem_preorder_of_child hc (List.mem_of_mem_head? hf)
      · exact mem_preorder_of_skip hc he
    · exact mem_preorder_of_skip hc he

end Node

end Indentation
