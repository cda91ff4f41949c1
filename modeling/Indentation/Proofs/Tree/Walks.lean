import Indentation.Proofs.Tree.Reach
import Mathlib.Data.List.Nodup

/-!
# Walks end, and are what the recursion says

A cursor knows a node and the way to it, and moves on by itself.  From a place it goes through what is at
and below the place, and then on to what comes after the whole of it: the next sibling, or what comes
after the parent.  So the walk that enters and leaves and the walk in preorder both go through a tree as
the recursion does, and end when they are done with the root.
-/

namespace Indentation

/-- A machine goes through some states one after the other.  The last part is what it would go on with
after them, if with anything. -/
inductive Traverses {α : Type} (step : α → Option α) : α → List α → Option α → Prop
  | last (a : α) : Traverses step a [a] (step a)
  | next {a b : α} {states : List α} {out : Option α} (hstep : step a = some b)
    (hrest : Traverses step b states out) : Traverses step a (a :: states) out

/-- What comes after the states is gone through next. -/
theorem Traverses.append {α : Type} {step : α → Option α} {a b : α} {states later : List α}
    {out : Option α} (h : Traverses step a states (some b)) (hlater : Traverses step b later out) :
    Traverses step a (states ++ later) out := by
  generalize hb : some b = mid at h
  induction h with
  | last a => exact .next hb.symm hlater
  | next hstep _ ih => exact .next hstep (ih hb)

/-- What is gone through for each of some places, one after the other. -/
theorem traverses_flatMap {α : Type} {step : α → Option α} (start : Cursor → α)
    {states : Cursor → List α} {out : Option α} {c : Cursor} {rest : List Cursor}
    (h : ∀ d later, d :: later <:+ c :: rest →
      Traverses step (start d) (states d) ((later.head?.map start).or out)) :
    Traverses step (start c) ((c :: rest).flatMap states) out := by
  induction rest generalizing c with
  | nil => simpa using h c [] List.suffix_rfl
  | cons d rest ih =>
    refine Traverses.append (h c (d :: rest) List.suffix_rfl) (ih fun e later he => ?_)
    exact h e later (he.trans (List.suffix_cons c (d :: rest)))

namespace Cursor

/-! ## From child to child -/

section Children

variable {c d : Cursor} {rest : List Cursor}

theorem nextSibling?_of_suffix_siblingsFrom {parent : Node} {trail : List Step} {index : Nat}
    {nodes : List Node} (h : d :: rest <:+ siblingsFrom parent trail index nodes) :
    d.nextSibling? = rest.head? := by
  induction nodes generalizing index with
  | nil => exact absurd (List.suffix_nil.1 h) (List.cons_ne_nil d rest)
  | cons n later ih =>
    rcases List.suffix_cons_iff.1 h with heq | h
    · obtain ⟨rfl, rfl⟩ := List.cons.inj heq
      cases later <;> rfl
    · exact ih h

/-- The sibling after a child is the next child. -/
theorem nextSibling?_of_suffix (h : d :: rest <:+ c.children) : d.nextSibling? = rest.head? :=
  nextSibling?_of_suffix_siblingsFrom h

theorem skip?_of_mem_children (hd : d ∈ c.children) :
    skip? d.trail = d.nextSibling?.or (skip? c.trail) := by
  obtain ⟨n, trail⟩ := d
  have hparent := parent?_of_mem_children hd
  cases trail with
  | nil => cases hparent
  | cons step trail =>
    obtain ⟨parent, index, later⟩ := step
    obtain rfl : ⟨parent, trail⟩ = c := Option.some.inj hparent
    cases later <;> rfl

/-- After a child comes the next one, and after the last child what comes after the parent. -/
theorem skip?_of_suffix (h : d :: rest <:+ c.children) :
    skip? d.trail = rest.head?.or (skip? c.trail) := by
  rw [skip?_of_mem_children (h.subset List.mem_cons_self), nextSibling?_of_suffix h]

end Children

/-! ## Two cursors that go through a tree -/

/-- A cursor in preorder goes through a place and what is below it, and then on to what comes after. -/
theorem traverses_preorder (c : Cursor) : Traverses next? c c.preorder (skip? c.trail) := by
  induction c using induction_children with
  | h c ih =>
    rw [preorder_eq]
    cases hc : c.children with
    | nil =>
      have hnext : next? c = skip? c.trail := by rw [next?, firstChild?_eq, hc]; rfl
      rw [← hnext]
      exact .last c
    | cons d rest =>
      have hnext : next? c = some d := by rw [next?, firstChild?_eq, hc]; rfl
      refine .next hnext (traverses_flatMap id fun e later h => ?_)
      rw [← hc] at h
      have hnext := ih e (h.subset List.mem_cons_self)
      rw [skip?_of_suffix h] at hnext
      rwa [Option.map_id]

end Cursor

namespace Walk

/-- Where a walk is when an event happens. -/
def ofEvent : Event → Walk
  | .enter c => ⟨c, false⟩
  | .leave c => ⟨c, true⟩

@[simp] theorem event_ofEvent (e : Event) : (ofEvent e).event = e := by
  cases e <;> rfl

/-- A walk that leaves a child goes on to the next one, and from the last child back to the parent. -/
theorem advance?_leave_of_suffix {c d : Cursor} {rest : List Cursor} (h : d :: rest <:+ c.children) :
    advance? ⟨d, true⟩ = (rest.head?.map fun e => ⟨e, false⟩).or (some ⟨c, true⟩) := by
  rw [advance?, if_pos rfl, Cursor.nextSibling?_of_suffix h,
    Cursor.parent?_of_mem_children (h.subset List.mem_cons_self)]
  cases rest <;> rfl

/-- A walk that enters a place goes through the events of the place, and then goes on as after leaving
it. -/
theorem traverses_events (c : Cursor) :
    Traverses advance? ⟨c, false⟩ (c.events.map ofEvent) (advance? ⟨c, true⟩) := by
  induction c using Cursor.induction_children with
  | h c ih =>
    rw [Cursor.events_eq, List.map_cons, List.map_append, List.map_flatMap]
    cases hc : c.children with
    | nil =>
      have hfirst : advance? ⟨c, false⟩ = some ⟨c, true⟩ := by
        rw [advance?, if_neg Bool.false_ne_true, Cursor.firstChild?_eq, hc]
        rfl
      exact .next hfirst (.last _)
    | cons d rest =>
      have hfirst : advance? ⟨c, false⟩ = some ⟨d, false⟩ := by
        rw [advance?, if_neg Bool.false_ne_true, Cursor.firstChild?_eq, hc]
        rfl
      let start (e : Cursor) : Walk := ⟨e, false⟩
      refine .next hfirst (Traverses.append (traverses_flatMap start fun e later h => ?_) (.last _))
      rw [← hc] at h
      have hnext := ih e (h.subset List.mem_cons_self)
      rwa [advance?_leave_of_suffix h] at hnext

theorem run_eq (w : Walk) : w.run = w.event :: (w.advance?.map run).getD [] := by
  rw [run]
  split
  · next hnone => rw [hnone]; rfl
  · next hsome => rw [hsome]; rfl

/-- A walk that ends has run through its events. -/
theorem run_of_traverses {w : Walk} {states : List Walk} (h : Traverses advance? w states none) :
    w.run = states.map event := by
  generalize hout : none = out at h
  induction h with
  | last w =>
    rw [run_eq, ← hout]
    rfl
  | next hstep _ ih => rw [run_eq, hstep, Option.map_some, Option.getD_some, ih hout, List.map_cons]

end Walk

theorem Cursor.tour_eq (c : Cursor) : c.tour = c :: (c.next?.map tour).getD [] := by
  rw [tour]
  split
  · next hnone => rw [hnone]; rfl
  · next hsome => rw [hsome]; rfl

/-- A cursor that ends has toured its places. -/
theorem Cursor.tour_of_traverses {c : Cursor} {places : List Cursor}
    (h : Traverses next? c places none) : c.tour = places := by
  generalize hout : none = out at h
  induction h with
  | last c =>
    rw [tour_eq, ← hout]
    rfl
  | next hstep _ ih => rw [tour_eq, hstep, Option.map_some, Option.getD_some, ih hout]

/-! ## Events that nest -/

/-- Events that enter places right below the innermost open one and leave no other than that.  The two
lists are the places that are open before and after, innermost first. -/
inductive Nests : List Cursor → List Event → List Cursor → Prop
  | done (opened : List Cursor) : Nests opened [] opened
  | enter {c : Cursor} {opened after : List Cursor} {events : List Event}
    (hparent : c.parent? = opened.head?) (h : Nests (c :: opened) events after) :
    Nests opened (.enter c :: events) after
  | leave {c : Cursor} {opened after : List Cursor} {events : List Event}
    (h : Nests opened events after) : Nests (c :: opened) (.leave c :: events) after

theorem Nests.append {opened opened' after : List Cursor} {es fs : List Event} (h : Nests opened es opened')
    (h' : Nests opened' fs after) : Nests opened (es ++ fs) after := by
  induction h with
  | done => exact h'
  | enter hparent _ ih => exact .enter hparent (ih h')
  | leave _ ih => exact .leave (ih h')

namespace Cursor

/-- Below the innermost open place the events of a place nest. -/
theorem nests_events {c : Cursor} {opened : List Cursor} (hparent : c.parent? = opened.head?) :
    Nests opened c.events opened := by
  induction c using induction_children generalizing opened with
  | h c ih =>
    have hchildren : ∀ ds : List Cursor, (∀ d ∈ ds, d ∈ c.children) →
        Nests (c :: opened) (ds.flatMap events) (c :: opened) := by
      intro ds hds
      induction ds with
      | nil => exact .done _
      | cons d ds ihds =>
        obtain ⟨hd, hds⟩ := List.forall_mem_cons.1 hds
        rw [List.flatMap_cons]
        have hchild : Nests (c :: opened) d.events (c :: opened) := ih d hd (parent?_of_mem_children hd)
        exact hchild.append (ihds hds)
    rw [events_eq]
    exact .enter hparent ((hchildren _ fun d hd => hd).append (.leave (.done opened)))

/-! ## Each event once -/

/-- Of two places above a third one, one is above the other. -/
theorem Reaches.total_above {b c d : Cursor} (hb : Reaches b d) (hc : Reaches c d) :
    Reaches b c ∨ Reaches c b := by
  induction hb with
  | refl => exact .inr hc
  | @tail e d hbe hd ih =>
    by_cases hcd : c = d
    · subst hcd
      exact .inl (hbe.trans (Reaches.child hd))
    · exact ih (hc.to_parent hcd hd)

/-- No place is below two children of one place. -/
theorem Reaches.eq_of_children {c d e x : Cursor} (hd : d ∈ c.children) (he : e ∈ c.children)
    (hdx : Reaches d x) (hex : Reaches e x) : d = e := by
  have hup : ∀ {d e : Cursor}, d ∈ c.children → e ∈ c.children → Reaches d e → d = e := by
    intro d e hd he h
    by_contra hne
    have := (h.to_parent hne he).size_le
    have := size_lt_of_mem_children hd
    omega
  rcases hdx.total_above hex with h | h
  · exact hup hd he h
  · exact (hup he hd h).symm

/-- No event of a walk happens twice. -/
theorem nodup_events (c : Cursor) : c.events.Nodup := by
  induction c using induction_children with
  | h c ih =>
    have hbelow : ∀ x ∈ c.children.flatMap events, x.place ≠ c := by
      rintro x hx rfl
      obtain ⟨d, hd, hx⟩ := List.mem_flatMap.1 hx
      have := (reaches_of_mem_events hx).size_le
      have := size_lt_of_mem_children hd
      omega
    have hchildren : (c.children.flatMap events).Nodup := by
      refine List.nodup_flatMap.2 ⟨ih, c.nodup_children.pairwise_of_forall_ne fun d hd e he hne => ?_⟩
      exact fun x hxd hxe => hne (Reaches.eq_of_children hd he (reaches_of_mem_events hxd)
        (reaches_of_mem_events hxe))
    rw [events_eq]
    refine List.nodup_cons.2 ⟨fun h => ?_, List.nodup_append.2 ⟨hchildren, List.nodup_singleton _, ?_⟩⟩
    · rcases List.mem_append.1 h with h | h
      · exact hbelow _ h rfl
      · cases List.mem_singleton.1 h
    · rintro x hx y hy rfl
      rw [List.mem_singleton.1 hy] at hx
      exact hbelow _ hx rfl

end Cursor

/-- The place that an event enters, if it enters one. -/
def Event.entered? : Event → Option Cursor
  | .enter c => some c
  | .leave _ => none

namespace Cursor

/-- Places are entered in preorder. -/
theorem filterMap_entered?_events (c : Cursor) : c.events.filterMap Event.entered? = c.preorder := by
  induction c using induction_children with
  | h c ih =>
    have hchildren : (c.children.flatMap events).filterMap Event.entered? = c.children.flatMap preorder := by
      rw [List.filterMap_flatMap]
      exact List.flatMap_congr ih
    rw [events_eq, preorder_eq, List.filterMap_cons, Event.entered?, List.filterMap_append, hchildren]
    simp [Event.entered?]

/-- A place is entered before and left after its children. -/
theorem sublist_events_of_child {c d : Cursor} (hd : d ∈ c.children) :
    [.enter c, .enter d, .leave d, .leave c].Sublist c.events := by
  have hown : [.enter d, .leave d].Sublist d.events := by
    rw [events_eq]
    exact (List.sublist_append_right _ _).cons_cons _
  have hchild : d.events.Sublist (c.children.flatMap events) := by
    obtain ⟨before, after, heq⟩ := List.append_of_mem hd
    rw [heq, List.flatMap_append, List.flatMap_cons]
    exact (List.sublist_append_left _ _).trans (List.sublist_append_right _ _)
  rw [events_eq]
  exact ((hown.trans hchild).append (List.Sublist.refl [.leave c])).cons_cons _

end Cursor

namespace Node

/-- Both walks end.  The one that enters and leaves has the events of the recursion: they nest, none of them
happens twice, and each place is entered before and left after all of its children.  The other has the
places in preorder, which are those that the first one enters. -/
theorem walks_as_recursion (tree : Node) :
    Traverses Walk.advance? (.start tree) (tree.events.map Walk.ofEvent) none ∧
    (Walk.start tree).run = tree.events ∧
    Nests [] tree.events [] ∧ tree.events.Nodup ∧
    (∀ c ∈ tree.preorder, ∀ d ∈ c.children,
      [.enter c, .enter d, .leave d, .leave c].Sublist tree.events) ∧
    Traverses Cursor.next? (.root tree) tree.preorder none ∧
    (Cursor.root tree).tour = tree.preorder ∧
    tree.preorder = tree.events.filterMap Event.entered? := by
  have hwalk : Traverses Walk.advance? (.start tree) (tree.events.map Walk.ofEvent) none :=
    Walk.traverses_events (.root tree)
  have htour : Traverses Cursor.next? (.root tree) tree.preorder none :=
    Cursor.traverses_preorder (.root tree)
  refine ⟨hwalk, ?_, Cursor.nests_events (c := .root tree) rfl, Cursor.nodup_events (.root tree),
    fun c hc d hd => ?_, htour, Cursor.tour_of_traverses htour,
    (Cursor.filterMap_entered?_events (.root tree)).symm⟩
  · rw [Walk.run_of_traverses hwalk, List.map_map]
    exact (List.map_congr_left fun e _ => Walk.event_ofEvent e).trans (List.map_id _)
  · obtain ⟨pre, post, heq, -⟩ := (mem_preorder_iff.1 hc).events_split
    rw [events_eq, heq]
    exact (Cursor.sublist_events_of_child hd).trans
      ((List.sublist_append_right _ _).trans (List.sublist_append_left _ _))

/-- A leaf, and behind it a place with a leaf of its own. -/
def forkTree : Node :=
  let place (kind : String) : Label := ⟨kind, .point 0, true, false, false, false, false, none⟩
  .mk (place "program") [.mk (place "comment") [], .mk (place "statement") [.mk (place "identifier") []]]

/-- Four places make eight events, and a last child is left before its parent. -/
theorem walks_as_recursion_forkTree : (Walk.start forkTree).run.length = 8 ∧
    (Cursor.root forkTree).tour.map Cursor.kind = ["program", "comment", "statement", "identifier"] ∧
    ∃ c ∈ forkTree.preorder, ∃ d ∈ c.children, d.nextSibling? = none ∧
      [.enter c, .enter d, .leave d, .leave c].Sublist (Walk.start forkTree).run := by
  obtain ⟨-, hrun, -, -, hchild, -, htour, -⟩ := walks_as_recursion forkTree
  obtain ⟨c, hc, d, hd, hlast⟩ : ∃ c ∈ forkTree.preorder, ∃ d ∈ c.children, d.nextSibling? = none := by
    decide
  rw [hrun, htour]
  exact ⟨rfl, rfl, c, hc, d, hd, hlast, hchild c hc d hd⟩

end Node

end Indentation
