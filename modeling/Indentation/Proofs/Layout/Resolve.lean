import Indentation.Layout.Indents
import Indentation.Proofs.Layout.Forward
import Indentation.Proofs.Token.Cut

/-!
# Widths are found

What the width of a token is goes by recursion on its anchors.  It is found with a chain of tokens, each
of which waits for the one that came into the chain after it.  At any time the tokens that wait are those
of the chain, and every width that is known is the one of the recursion.  A chain that comes back to
a token of its own shows that the recursion does not end there.

In a forward graph following anchors ends, so every token gets a width.
-/

namespace Indentation

/-! ## Slots -/

namespace Slots

variable {slots : Slots} {token : Nat} {new : Slot}

theorem slot_put (h : token < slots.size) (new : Slot) (t : Nat) :
    (slots.put token new).slot t = if token = t then new else slots.slot t := by
  simp only [slot, put, Array.getD_eq_getD_getElem?, Array.getElem?_setIfInBounds]
  by_cases ht : token = t
  · subst ht
    simp [h]
  · simp [ht]

theorem size_put : (slots.put token new).size = slots.size := Array.size_setIfInBounds

/-- Tokens that have not been looked at. -/
def unvisited (slots : Slots) : Nat := slots.count .unvisited

theorem unvisited_put (h : token < slots.size) (hnew : new ≠ .unvisited) :
    (slots.put token new).unvisited = slots.unvisited - if slots.slot token = .unvisited then 1 else 0 := by
  have hslot : slots.slot token = slots[token] := by simp [slot, Array.getD_eq_getD_getElem?, h]
  rw [unvisited, put, Array.setIfInBounds, dif_pos h, Array.count_set h, hslot, unvisited]
  simp [hnew]

theorem unvisited_pos (h : token < slots.size) (hslot : slots.slot token = .unvisited) :
    0 < slots.unvisited := by
  refine Array.count_pos_iff.2 (Array.mem_iff_getElem.2 ⟨token, h, ?_⟩)
  rw [← hslot]
  simp [slot, Array.getD_eq_getD_getElem?, h]

end Slots

namespace Graph

/-! ## The recursion -/

/-- The width of a token, by recursion on its anchors. -/
inductive Settles (s : TokenStream) (c : IndentChar) (g : Graph) : Nat → Nat → Prop
  | exempt {t : Nat} (hexempt : g.isExempt t = true) : Settles s c g t ((s.marginOf t).good c)
  | free {t : Nat} (hexempt : g.isExempt t = false) (hanchor : g.anchor? t = none) :
      Settles s c g t (g.edge t).offset
  | anchored {t a base : Nat} (hexempt : g.isExempt t = false) (hanchor : g.anchor? t = some a)
      (hbase : Settles s c g a base) : Settles s c g t (Width.add base (g.edge t).offset)

variable {s : TokenStream} {c : IndentChar} {g : Graph}

theorem Settles.unique {t width width' : Nat} (h : Settles s c g t width)
    (h' : Settles s c g t width') : width = width' := by
  induction h generalizing width' with
  | exempt hexempt =>
    cases h' with
    | exempt => rfl
    | free hnot => exact nomatch hexempt.symm.trans hnot
    | anchored hnot => exact nomatch hexempt.symm.trans hnot
  | free hexempt hanchor =>
    cases h' with
    | exempt hyes => exact nomatch hexempt.symm.trans hyes
    | free => rfl
    | anchored _ hsome => exact nomatch hanchor.symm.trans hsome
  | anchored hexempt hanchor _ ih =>
    cases h' with
    | exempt hyes => exact nomatch hexempt.symm.trans hyes
    | free _ hnone => exact nomatch hanchor.symm.trans hnone
    | anchored _ hsome hbase =>
      obtain rfl := Option.some.inj (hanchor.symm.trans hsome)
      rw [ih hbase]

/-- Tokens that are anchored among themselves have no widths. -/
theorem not_settles_of_closed {tokens : List Nat} (hclosed : ∀ t ∈ tokens, g.isExempt t = false ∧
    ∃ a ∈ tokens, g.anchor? t = some a) {t width : Nat} (ht : t ∈ tokens) :
    ¬Settles s c g t width := by
  intro h
  induction h with
  | exempt hexempt => exact nomatch hexempt.symm.trans (hclosed _ ht).1
  | free _ hanchor =>
    obtain ⟨-, a, -, hsome⟩ := hclosed _ ht
    exact nomatch hanchor.symm.trans hsome
  | anchored _ hanchor _ ih =>
    obtain ⟨-, a, ha, hsome⟩ := hclosed _ ht
    obtain rfl := Option.some.inj (hanchor.symm.trans hsome)
    exact ih ha

/-! ## A chain of tokens -/

/-- The anchors of tokens of the stream are tokens of the stream. -/
def Anchored (g : Graph) (s : TokenStream) : Prop :=
  ∀ t < s.size, ∀ a, g.anchor? t = some a → a < s.size

/-- A chain on the way: each of its tokens but the last waits for the anchor that came in after it, no
other token waits, and all widths that are known are right.  The last token, which is the head of the
list, may have got its anchor looked at before. -/
structure Climbing (s : TokenStream) (c : IndentChar) (g : Graph) (slots : Slots) (chain : List Nat) :
    Prop where
  size_eq : slots.size = s.size
  lt_size : ∀ t ∈ chain, t < s.size
  settles : ∀ t width, slots.slot t = .done width → Settles s c g t width
  linked : chain.IsChain fun t u => g.isExempt u = false ∧ g.anchor? u = some t
  waits : ∀ t ∈ chain.tail, slots.slot t = .inProgress
  mem_chain : ∀ t, slots.slot t = .inProgress → t ∈ chain
  last : ∀ t ∈ chain.head?, slots.slot t = .unvisited ∨
    slots.slot t = .inProgress ∧ ∀ a, g.anchor? t = some a → slots.slot a ≠ .unvisited

/-- Known widths stay, and each token of a chain stays in it until its width is known. -/
structure Extends (slots : Slots) (chain : List Nat) (slots' : Slots) (chain' : List Nat) : Prop where
  keeps : ∀ t width, slots.slot t = .done width → slots'.slot t = .done width
  mem_or_done : ∀ t ∈ chain, t ∈ chain' ∨ ∃ width, slots'.slot t = .done width

theorem Extends.trans {slots slots' slots'' : Slots} {chain chain' chain'' : List Nat}
    (h : Extends slots chain slots' chain') (h' : Extends slots' chain' slots'' chain'') :
    Extends slots chain slots'' chain'' where
  keeps := fun t width ht => h'.keeps t width (h.keeps t width ht)
  mem_or_done := fun t ht => by
    rcases h.mem_or_done t ht with ht' | ⟨width, hdone⟩
    · exact h'.mem_or_done t ht'
    · exact .inr ⟨width, h'.keeps t width hdone⟩

/-- Looks that a chain takes at most: one for each of its tokens, and two for each that is new to
it. -/
def looks (slots : Slots) (chain : List Nat) : Nat := 2 * slots.unvisited + chain.length

namespace Climbing

variable {slots : Slots} {token : Nat} {waiting : List Nat}

theorem not_done (h : Climbing s c g slots (token :: waiting)) {t : Nat} (ht : t ∈ token :: waiting)
    (width : Nat) : slots.slot t ≠ .done width := by
  rcases List.mem_cons.1 ht with rfl | ht
  · rcases h.last t rfl with hslot | ⟨hslot, -⟩ <;> rw [hslot] <;> exact nofun
  · rw [h.waits t ht]
    exact nofun

/-- A token that waits is anchored to one that its width is not known of. -/
theorem exists_anchor_of_mem (h : Climbing s c g slots (token :: waiting)) {t : Nat} (ht : t ∈ waiting) :
    g.isExempt t = false ∧ ∃ a ∈ token :: waiting, g.anchor? t = some a := by
  have hlinked := h.linked
  clear h
  induction waiting generalizing token with
  | nil => cases ht
  | cons first rest ih =>
    obtain ⟨⟨hexempt, hanchor⟩, hrest⟩ := List.isChain_cons_cons.1 hlinked
    rcases List.mem_cons.1 ht with rfl | ht
    · exact ⟨hexempt, token, List.mem_cons_self, hanchor⟩
    · obtain ⟨hexempt, a, ha, hanchor⟩ := ih ht hrest
      exact ⟨hexempt, a, List.mem_cons_of_mem token ha, hanchor⟩

theorem lt_slots_size (h : Climbing s c g slots (token :: waiting)) : token < slots.size :=
  h.size_eq ▸ h.lt_size token List.mem_cons_self

/-- What is put in for the last token takes no width away. -/
theorem extends_put (h : Climbing s c g slots (token :: waiting)) {v : Slot} {chain : List Nat}
    (hmem : ∀ t ∈ token :: waiting, t ∈ chain ∨ ∃ width, (slots.put token v).slot t = .done width) :
    Extends slots (token :: waiting) (slots.put token v) chain where
  keeps t w ht := by
    rw [Slots.slot_put h.lt_slots_size, if_neg, ht]
    rintro rfl
    exact h.not_done List.mem_cons_self w ht
  mem_or_done := hmem

/-- The last token gets its width and leaves the chain. -/
theorem leave (h : Climbing s c g slots (token :: waiting)) {width : Nat}
    (hwidth : Settles s c g token width) (hnew : token ∉ waiting) :
    Climbing s c g (slots.put token (.done width)) waiting := by
  have hput := Slots.slot_put h.lt_slots_size (.done width)
  have hwaits : ∀ t ∈ waiting, (slots.put token (.done width)).slot t = .inProgress := fun t ht => by
    rw [hput, if_neg, h.waits t ht]
    rintro rfl
    exact hnew ht
  exact {
    size_eq := by rw [Slots.size_put, h.size_eq]
    lt_size := fun t ht => h.lt_size t (List.mem_cons_of_mem token ht)
    settles := by
      intro t w ht
      rw [hput] at ht
      split at ht
      · next heq =>
        subst heq
        obtain rfl := Slot.done.inj ht
        exact hwidth
      · exact h.settles t w ht
    linked := List.IsChain.of_cons h.linked
    waits := fun t ht => hwaits t (List.mem_of_mem_tail ht)
    mem_chain := by
      intro t ht
      rw [hput] at ht
      split at ht
      · cases ht
      · next hne => exact (List.mem_cons.1 (h.mem_chain t ht)).resolve_left (Ne.symm hne)
    last := by
      intro t ht
      -- The token that is last now waited for the one that has its width.
      obtain ⟨rest, rfl⟩ : ∃ rest, waiting = t :: rest := by
        cases waiting with
        | nil => cases ht
        | cons first rest => exact ⟨rest, by rw [Option.some.inj ht]⟩
      obtain ⟨⟨-, hanchor⟩, -⟩ := List.isChain_cons_cons.1 h.linked
      refine .inr ⟨hwaits t List.mem_cons_self, fun a ha => ?_⟩
      obtain rfl := Option.some.inj (hanchor.symm.trans ha)
      rw [hput, if_pos rfl]
      exact nofun }

theorem extends_leave (h : Climbing s c g slots (token :: waiting)) (width : Nat) :
    Extends slots (token :: waiting) (slots.put token (.done width)) waiting := by
  refine h.extends_put fun t ht => ?_
  rcases List.mem_cons.1 ht with rfl | ht
  · exact .inr ⟨width, by rw [Slots.slot_put h.lt_slots_size, if_pos rfl]⟩
  · exact .inl ht

theorem looks_leave (h : Climbing s c g slots (token :: waiting)) (width : Nat) :
    looks (slots.put token (.done width)) waiting < looks slots (token :: waiting) := by
  rw [looks, looks, Slots.unvisited_put h.lt_slots_size (show Slot.done width ≠ .unvisited from nofun),
    List.length_cons]
  omega

/-- A token that has not been looked at waits for its anchor. -/
theorem enter (h : Climbing s c g slots (token :: waiting)) {anchor : Nat}
    (hexempt : g.isExempt token = false) (hanchor : g.anchor? token = some anchor)
    (hrange : anchor < s.size) (hslot : slots.slot anchor = .unvisited) :
    Climbing s c g (slots.put token .inProgress) (anchor :: token :: waiting) := by
  have hput := Slots.slot_put h.lt_slots_size .inProgress
  exact {
    size_eq := by rw [Slots.size_put, h.size_eq]
    lt_size := List.forall_mem_cons.2 ⟨hrange, h.lt_size⟩
    settles := by
      intro t w ht
      rw [hput] at ht
      split at ht
      · cases ht
      · exact h.settles t w ht
    linked := List.isChain_cons_cons.2 ⟨⟨hexempt, hanchor⟩, h.linked⟩
    waits := by
      intro t ht
      rw [hput]
      split
      · rfl
      · next hne => exact h.waits t ((List.mem_cons.1 ht).resolve_left (Ne.symm hne))
    mem_chain := by
      intro t ht
      rw [hput] at ht
      split at ht
      · next heq => exact heq ▸ List.mem_cons_of_mem anchor List.mem_cons_self
      · exact List.mem_cons_of_mem anchor (h.mem_chain t ht)
    last := by
      intro t ht
      obtain rfl := Option.some.inj ht
      by_cases hself : token = anchor
      · -- A token that is anchored to itself waits for itself.
        subst hself
        refine .inr ⟨by rw [hput, if_pos rfl], fun a ha => ?_⟩
        obtain rfl := Option.some.inj (hanchor.symm.trans ha)
        rw [hput, if_pos rfl]
        exact nofun
      · exact .inl (by rw [hput, if_neg hself, hslot]) }

theorem extends_enter (h : Climbing s c g slots (token :: waiting)) (anchor : Nat) :
    Extends slots (token :: waiting) (slots.put token .inProgress) (anchor :: token :: waiting) :=
  h.extends_put fun _ ht => .inl (List.mem_cons_of_mem anchor ht)

theorem looks_enter (h : Climbing s c g slots (token :: waiting)) {anchor : Nat}
    (hanchor : g.anchor? token = some anchor) (hslot : slots.slot anchor = .unvisited) :
    looks (slots.put token .inProgress) (anchor :: token :: waiting) < looks slots (token :: waiting) := by
  have hfirst : slots.slot token = .unvisited :=
    (h.last token rfl).resolve_right fun hlast => hlast.2 anchor hanchor hslot
  have hpos := Slots.unvisited_pos h.lt_slots_size hfirst
  rw [looks, looks, Slots.unvisited_put h.lt_slots_size (show Slot.inProgress ≠ .unvisited from nofun),
    if_pos hfirst, List.length_cons]
  omega

/-- A token that is anchored to one that waits has no width. -/
theorem not_settles (h : Climbing s c g slots (token :: waiting)) {anchor : Nat}
    (hexempt : g.isExempt token = false) (hanchor : g.anchor? token = some anchor)
    (hslot : slots.slot anchor = .inProgress) (width : Nat) : ¬Settles s c g token width := by
  have hclosed : ∀ t ∈ token :: waiting, g.isExempt t = false ∧
      ∃ a ∈ token :: waiting, g.anchor? t = some a := by
    intro t ht
    rcases List.mem_cons.1 ht with rfl | ht
    · exact ⟨hexempt, anchor, h.mem_chain anchor hslot, hanchor⟩
    · exact h.exists_anchor_of_mem ht
  exact not_settles_of_closed hclosed List.mem_cons_self

/-! ## One look, and all of them -/

/-- A look at the last token brings the chain on, or finds that the token has no width. -/
theorem climbStep_cases (hg : g.Anchored s) (h : Climbing s c g slots (token :: waiting)) :
    (∃ slots' chain', climbStep s c g slots token waiting = .ok (slots', chain') ∧
      Climbing s c g slots' chain' ∧ Extends slots (token :: waiting) slots' chain' ∧
      looks slots' chain' < looks slots (token :: waiting)) ∨
    ∃ anchor, climbStep s c g slots token waiting = .error (.cycle token anchor) ∧
      ∀ width, ¬Settles s c g token width := by
  have hopen (width : Nat) := h.not_done List.mem_cons_self width
  generalize hstep : climbStep s c g slots token waiting = out
  rw [climbStep] at hstep
  -- A token with its width is in no chain, so the first case of a look is not met.
  split at hstep
  · next width hslot => exact absurd hslot (hopen width)
  dsimp only at hstep
  rw [← anchor?] at hstep
  cases hexempt : g.isExempt token with
  | true =>
    have hnew : token ∉ waiting := fun hmem =>
      Bool.false_ne_true ((h.exists_anchor_of_mem hmem).1.symm.trans hexempt)
    rw [if_pos hexempt] at hstep
    exact .inl ⟨_, _, hstep.symm, h.leave (.exempt hexempt) hnew, h.extends_leave _, h.looks_leave _⟩
  | false =>
    rw [hexempt, if_neg Bool.false_ne_true] at hstep
    cases hanchor : g.anchor? token with
    | none =>
      have hnew : token ∉ waiting := fun hmem => by
        obtain ⟨-, a, -, hsome⟩ := h.exists_anchor_of_mem hmem
        cases hanchor.symm.trans hsome
      rw [hanchor] at hstep
      exact .inl ⟨_, _, hstep.symm, h.leave (.free hexempt hanchor) hnew, h.extends_leave _,
        h.looks_leave _⟩
    | some anchor =>
      rw [hanchor] at hstep
      cases hslot : slots.slot anchor with
      | done base =>
        have hnew : token ∉ waiting := fun hmem => by
          obtain ⟨-, a, ha, hsome⟩ := h.exists_anchor_of_mem hmem
          obtain rfl := Option.some.inj (hanchor.symm.trans hsome)
          exact h.not_done ha base hslot
        simp only [hslot] at hstep
        have hsettles := Settles.anchored hexempt hanchor (h.settles anchor base hslot)
        exact .inl ⟨_, _, hstep.symm, h.leave hsettles hnew, h.extends_leave _, h.looks_leave _⟩
      | inProgress =>
        simp only [hslot] at hstep
        exact .inr ⟨anchor, hstep.symm, h.not_settles hexempt hanchor hslot⟩
      | unvisited =>
        simp only [hslot] at hstep
        have hrange := hg token (h.lt_size token List.mem_cons_self) anchor hanchor
        exact .inl ⟨_, _, hstep.symm, h.enter hexempt hanchor hrange hslot, h.extends_enter anchor,
          h.looks_enter hanchor hslot⟩

end Climbing

/-- What a search for the widths of some tokens comes to: it finds them all, or a token on a cycle, which
has no width. -/
inductive Search (s : TokenStream) (c : IndentChar) (g : Graph) (slots : Slots) (tokens : List Nat) :
    Except Unresolved Slots → Prop
  | found {slots' : Slots} (settled : Climbing s c g slots' []) (reached : Extends slots tokens slots' []) :
      Search s c g slots tokens (.ok slots')
  | cycle {t anchor : Nat} (lt_size : t < s.size) (not_settles : ∀ width, ¬Settles s c g t width) :
      Search s c g slots tokens (.error (.cycle t anchor))

variable {slots : Slots}

/-- What is found further on is found from the start. -/
theorem Search.of_extends {slots' : Slots} {tokens tokens' : List Nat} {r : Except Unresolved Slots}
    (h : Search s c g slots' tokens' r) (hextends : Extends slots tokens slots' tokens') :
    Search s c g slots tokens r := by
  cases h with
  | found settled reached => exact .found settled (hextends.trans reached)
  | cycle lt_size not_settles => exact .cycle lt_size not_settles

/-- With enough looks all tokens of a chain get their widths. -/
theorem search_climb (hg : g.Anchored s) {fuel : Nat} {chain : List Nat}
    (h : Climbing s c g slots chain) (hfuel : looks slots chain ≤ fuel) :
    Search s c g slots chain (climb s c g fuel slots chain) := by
  induction fuel generalizing slots chain with
  | zero =>
    obtain rfl : chain = [] := List.length_eq_zero_iff.1 (by rw [looks] at hfuel; omega)
    exact .found h ⟨fun _ _ ht => ht, fun _ ht => .inl ht⟩
  | succ fuel ih =>
    cases chain with
    | nil => exact .found h ⟨fun _ _ ht => ht, fun _ ht => .inl ht⟩
    | cons token waiting =>
      rw [climb]
      rcases h.climbStep_cases hg with ⟨slots', chain', hstep, h', hextends, hless⟩ |
        ⟨anchor, hstep, hnot⟩
      · simp only [hstep, bind, Except.bind]
        exact (ih h' (by omega)).of_extends hextends
      · simp only [hstep, bind, Except.bind]
        exact .cycle (h.lt_size token List.mem_cons_self) hnot

theorem search_climbFrom (hg : g.Anchored s) (h : Climbing s c g slots []) {start : Nat}
    (hstart : start < s.size) : Search s c g slots [start] (climbFrom s c g slots start) := by
  have hfuel : looks slots [start] ≤ 2 * slots.size + 1 := by
    have hle : slots.unvisited ≤ slots.size := Array.count_le_size
    rw [looks, List.length_singleton]
    omega
  rw [climbFrom]
  cases hslot : slots.slot start with
  | done width =>
    refine .found h ⟨fun _ _ ht => ht, fun t ht => .inr ⟨width, ?_⟩⟩
    rw [List.mem_singleton.1 ht, hslot]
  | inProgress => exact absurd (h.mem_chain start hslot) List.not_mem_nil
  | unvisited =>
    refine search_climb hg ⟨h.size_eq, ?_, h.settles, .singleton start, nofun, ?_, ?_⟩ hfuel
    · exact fun t ht => List.mem_singleton.1 ht ▸ hstart
    · exact fun t ht => absurd (h.mem_chain t ht) List.not_mem_nil
    · exact fun t ht => .inl (Option.some.inj ht ▸ hslot)

theorem search_foldlM (hg : g.Anchored s) (h : Climbing s c g slots []) {starts : List Nat}
    (hstarts : ∀ t ∈ starts, t < s.size) :
    Search s c g slots starts (starts.foldlM (climbFrom s c g) slots) := by
  induction starts generalizing slots with
  | nil => exact .found h ⟨fun _ _ ht => ht, fun _ ht => .inl ht⟩
  | cons start starts ih =>
    obtain ⟨hstart, hstarts⟩ := List.forall_mem_cons.1 hstarts
    have hfrom := search_climbFrom hg h hstart
    rw [List.foldlM_cons]
    generalize climbFrom s c g slots start = r at hfrom
    cases hfrom with
    | cycle lt_size not_settles => exact .cycle lt_size not_settles
    | found settled reached =>
      refine (ih settled hstarts).of_extends ⟨reached.keeps, fun t ht => ?_⟩
      rcases List.mem_cons.1 ht with rfl | ht
      · exact .inr ((reached.mem_or_done t List.mem_cons_self).resolve_left List.not_mem_nil)
      · exact .inl ht

/-! ## Resolving -/

theorem climbing_unvisited (s : TokenStream) (c : IndentChar) (g : Graph) :
    Climbing s c g (Array.replicate s.size .unvisited) [] := by
  have hnone (t : Nat) : Slots.slot (Array.replicate s.size .unvisited) t = .unvisited := by
    simp only [Slots.slot, Array.getD_eq_getD_getElem?, Array.getElem?_replicate]
    split <;> rfl
  refine ⟨Array.size_replicate, nofun, fun t w ht => ?_, .nil, nofun, fun t ht => ?_, nofun⟩
  · exact nomatch (hnone t).symm.trans ht
  · exact nomatch (hnone t).symm.trans ht

/-- If all tokens are started from then either each has a width, and these are the ones that are found,
or a cycle is found. -/
theorem resolveFrom_cases (hg : g.Anchored s) {starts : List Nat}
    (hstarts : ∀ t, t ∈ starts ↔ t < s.size) :
    (∃ widths, g.resolveFrom s c starts = .ok widths ∧ widths.size = s.size ∧
      ∀ t < s.size, Settles s c g t (widths.getD t 0)) ∨
    ∃ t anchor, g.resolveFrom s c starts = .error (.cycle t anchor) ∧ t < s.size ∧
      ∀ width, ¬Settles s c g t width := by
  have hsearch := search_foldlM hg (climbing_unvisited s c g) fun t ht => (hstarts t).1 ht
  rw [resolveFrom]
  generalize starts.foldlM (climbFrom s c g) (Array.replicate s.size .unvisited) = r at hsearch
  cases hsearch with
  | cycle lt_size not_settles => exact .inr ⟨_, _, rfl, lt_size, not_settles⟩
  | @found slots settled reached =>
    have hdone (t : Nat) (ht : t ∈ s.ids) : ∃ width, slots.width t = .ok width ∧ Settles s c g t width := by
      have hstart := (hstarts t).2 (List.mem_range.1 ht)
      obtain ⟨width, hslot⟩ := (reached.mem_or_done t hstart).resolve_left List.not_mem_nil
      exact ⟨width, by rw [Slots.width, hslot], settled.settles t width hslot⟩
    obtain ⟨widths, hwidths, hsettles⟩ := exists_mapM_ok hdone
    have hlength : widths.length = s.size := by rw [← hsettles.length_eq, TokenStream.ids, List.length_range]
    refine .inl ⟨widths.toArray, ?_, hlength, fun t ht => ?_⟩
    · simp only [bind, Except.bind, hwidths]
      rfl
    · have hget := hsettles.get (i := t) (by simpa [TokenStream.ids] using ht) (hlength ▸ ht)
      simpa [TokenStream.ids, hlength ▸ ht] using hget

/-! ## Forward graphs -/

/-- What the graph says about the width of a token, given the widths of all tokens. -/
def prescribed (s : TokenStream) (c : IndentChar) (g : Graph) (width : Nat → Nat) (t : Nat) : Nat :=
  if g.isExempt t then (s.marginOf t).good c
  else
    match g.anchor? t with
    | none => (g.edge t).offset
    | some anchor => Width.add (width anchor) (g.edge t).offset

theorem prescribed_of_edge {f : Nat → Nat} {t a n : Nat} (hexempt : g.isExempt t = false)
    (hedge : g.edge t = ⟨some a, n⟩) : g.prescribed s c f t = Width.add (f a) n := by
  rw [prescribed, hexempt, anchor?, hedge]
  rfl

/-- Tokens that stand alike get one width. -/
theorem prescribed_congr {f : Nat → Nat} {t u : Nat} (ht : g.isExempt t = false)
    (hu : g.isExempt u = false) (hedge : g.edge t = g.edge u) :
    g.prescribed s c f t = g.prescribed s c f u := by
  rw [prescribed, prescribed, ht, hu, anchor?, anchor?, hedge]
  rfl

theorem Settles.eq_prescribed {t width : Nat} (h : Settles s c g t width) {f : Nat → Nat}
    (hf : ∀ a base, g.anchor? t = some a → Settles s c g a base → f a = base) :
    width = g.prescribed s c f t := by
  rw [prescribed]
  cases h with
  | exempt hexempt => rw [if_pos hexempt]
  | free hexempt hanchor => simp [hexempt, hanchor]
  | anchored hexempt hanchor hbase => simp [hexempt, hanchor, hf _ _ hanchor hbase]

/-- Following anchors of a forward graph ends. -/
theorem Forward.exists_settles (hg : g.Forward) (s : TokenStream) (c : IndentChar) (t : Nat) :
    ∃ width, Settles s c g t width := by
  induction t using Nat.strongRecOn with
  | ind t ih =>
    cases hexempt : g.isExempt t with
    | true => exact ⟨_, .exempt hexempt⟩
    | false =>
      cases hanchor : g.anchor? t with
      | none => exact ⟨_, .free hexempt hanchor⟩
      | some a =>
        obtain ⟨base, hbase⟩ := ih a (hg t a hanchor)
        exact ⟨_, .anchored hexempt hanchor hbase⟩

/-- A forward graph resolves, to the widths of the recursion. -/
theorem exists_resolve_settles (hg : g.Forward) (s : TokenStream) (c : IndentChar) :
    ∃ widths, g.resolve s c = .ok widths ∧ ∀ t < s.size, Settles s c g t (widths.getD t 0) := by
  have hanchored : g.Anchored s := fun t ht a ha => Nat.lt_trans (hg t a ha) ht
  rcases resolveFrom_cases (c := c) hanchored fun t => (List.mem_range : t ∈ s.ids ↔ _) with
    ⟨widths, hwidths, -, hsettles⟩ | ⟨t, _, _, _, hnot⟩
  · exact ⟨widths, hwidths, hsettles⟩
  · obtain ⟨width, hwidth⟩ := hg.exists_settles s c t
    exact absurd hwidth (hnot width)

/-- The widths that a forward graph resolves to are as it says. -/
theorem exists_resolve (hg : g.Forward) (s : TokenStream) (c : IndentChar) :
    ∃ widths, g.resolve s c = .ok widths ∧
      ∀ t < s.size, widths.getD t 0 = g.prescribed s c (fun a => widths.getD a 0) t := by
  obtain ⟨widths, hwidths, hsettles⟩ := exists_resolve_settles hg s c
  refine ⟨widths, hwidths, fun t ht => (hsettles t ht).eq_prescribed fun a base ha hbase => ?_⟩
  exact (hsettles a (Nat.lt_trans (hg t a ha) ht)).unique hbase

end Graph

end Indentation
