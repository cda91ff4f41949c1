import Indentation.Proofs.Layout.Local
import Indentation.Proofs.Layout.Parens

/-!
# What parentheses group

Of two pairs of parentheses either one is inside the other or they are apart.  Outer pairs are written
before the ones inside them, so of the pairs that group a token the innermost one has the last word: it
takes the token in, unless the token is anchored inside it.  No pair that is written before changes
whether it is.
-/

namespace Indentation

namespace Parens

/-- A token lies strictly between the parentheses of a pair. -/
def Encloses (p : Nat × Nat) (t : Nat) : Prop := p.1 < t ∧ t < p.2

instance (p : Nat × Nat) (t : Nat) : Decidable (Encloses p t) :=
  inferInstanceAs (Decidable (p.1 < t ∧ t < p.2))

/-- The parentheses of a pair belong to no list of parameters or arguments. -/
def Groups (g : Graph) (p : Nat × Nat) : Prop := g.isBracket p.1 = false ∧ g.isBracket p.2 = false

instance (g : Graph) (p : Nat × Nat) : Decidable (Groups g p) :=
  inferInstanceAs (Decidable (g.isBracket p.1 = false ∧ g.isBracket p.2 = false))

/-- The second pair is inside the first one, or comes before it. -/
def Around (p q : Nat × Nat) : Prop := q.2 < p.1 ∨ p.1 < q.1 ∧ q.2 < p.2

/-- The pair closest around a token, of those that group something. -/
structure Innermost (g : Graph) (ps : List (Nat × Nat)) (t : Nat) (p : Nat × Nat) : Prop where
  mem : p ∈ ps
  groups : Groups g p
  encloses : Encloses p t
  least : ∀ q ∈ ps, Groups g q → Encloses q t → q.1 ≤ p.1 ∧ p.2 ≤ q.2

/-! ## Pairs are nested -/

variable {s : TokenStream}

/-- Parentheses that are still open come one after the other and are inside no pair that has been
found. -/
structure Stacked (scan : Scan) : Prop where
  descending : scan.opened.Pairwise fun left outer => outer < left
  outside : ∀ left ∈ scan.opened, ∀ p ∈ scan.pairs, left < p.1 ∨ p.2 < left
  nested : scan.pairs.Pairwise Around

theorem Stacked.step {token : Nat} {scan : Scan} (hscan : Scanned s token scan) (h : Stacked scan) :
    Stacked (step s scan token) := by
  obtain ⟨opened, pairs⟩ := scan
  have hpairs (p : Nat × Nat) (hp : p ∈ pairs) : p.1 < p.2 ∧ p.2 < token :=
    ⟨(hscan.pairs p hp).1, (hscan.pairs p hp).2.1⟩
  unfold Parens.step
  split
  · refine ⟨List.pairwise_cons.2 ⟨fun left hl => (hscan.opened left hl).1, h.descending⟩, ?_, h.nested⟩
    refine List.forall_mem_cons.2 ⟨fun p hp => .inr (hpairs p hp).2, h.outside⟩
  · split
    · cases opened with
      | nil => exact h
      | cons left opened =>
        obtain ⟨hdescending, hrest⟩ := List.pairwise_cons.1 h.descending
        obtain ⟨hleft, houtside⟩ := List.forall_mem_cons.1 h.outside
        refine ⟨hrest, fun outer ho => ?_, List.pairwise_cons.2 ⟨fun p hp => ?_, h.nested⟩⟩
        · exact List.forall_mem_cons.2 ⟨.inl (hdescending outer ho), houtside outer ho⟩
        · have := hpairs p hp
          rcases hleft p hp with hlt | hlt
          · exact .inr ⟨hlt, this.2⟩
          · exact .inl hlt
    · exact h

theorem stacked_range (s : TokenStream) (n : Nat) :
    Stacked ((List.range n).foldl (step s) ⟨[], []⟩) := by
  induction n with
  | zero => exact ⟨.nil, nofun, .nil⟩
  | succ n ih =>
    rw [List.range_succ, List.foldl_append]
    exact ih.step (scanned_range s n)

theorem pairwise_around (s : TokenStream) : (pairs s).Pairwise Around := (stacked_range s s.size).nested

/-- Two pairs are nested or apart. -/
theorem nested_or_apart {p q : Nat × Nat} (hp : p ∈ pairs s) (hq : q ∈ pairs s) (hne : p ≠ q) :
    Around p q ∨ Around q p := by
  have hpairs : (pairs s).Pairwise fun p q => Around p q ∨ Around q p := (pairwise_around s).imp Or.inl
  have hsymm : Std.Symm fun p q : Nat × Nat => Around p q ∨ Around q p := ⟨fun _ _ h => h.symm⟩
  exact hpairs.forall hp hq hne

end Parens

/-! ## One pair -/

namespace Edge

/-- The anchor lies strictly between the parentheses of a pair. -/
def isIn (e : Edge) (p : Nat × Nat) : Bool := e.anchor.any fun a => p.1 < a && a < p.2

/-- Where a token stands that a parenthesis takes in: a level further in, or level with it on the same
line. -/
def grouped (s : TokenStream) (unit left token : Nat) : Edge :=
  ⟨some left, if s.sameStartLine token left then 0 else Width.ofLevels unit 1⟩

theorem isIn_iff {e : Edge} {p : Nat × Nat} : e.isIn p = true ↔ ∃ a, e.anchor = some a ∧ Parens.Encloses p a := by
  simp [isIn, Option.any_eq_true, Parens.Encloses]

/-- An anchor in a pair is in the pairs around it. -/
theorem isIn_of_inner {e : Edge} {p q : Nat × Nat} (hq : p.1 < q.1 ∧ q.2 < p.2) (h : e.isIn q = true) :
    e.isIn p = true := by
  obtain ⟨a, ha, hin⟩ := isIn_iff.1 h
  exact isIn_iff.2 ⟨a, ha, Nat.lt_trans hq.1 hin.1, Nat.lt_trans hin.2 hq.2⟩

end Edge

namespace Graph

variable {g : Graph} {s : TokenStream} {unit t : Nat}

theorem edge_encloseToken {p : Nat × Nat} (ht : t < g.size) (hne : p.1 ≠ t) :
    (encloseToken s unit p.1 p.2 g t).edge t =
      if (g.edge t).isIn p then g.edge t else .grouped s unit p.1 t := by
  rw [encloseToken, anchor?, ← Edge.isIn]
  split
  · rfl
  · rw [indent, Edge.grouped]
    split
    · exact edge_align hne ht
    · rw [edge_setEdge, if_pos ⟨rfl, ht⟩]

/-- What a pair makes of a token other than its second parenthesis. -/
theorem edge_enclose {p : Nat × Nat} (ht : t < g.size) (hne : t ≠ p.2) :
    (g.write s unit (.enclose p.1 p.2)).edge t =
      if Parens.Groups g p ∧ Parens.Encloses p t ∧ (g.edge t).isIn p = false then .grouped s unit p.1 t
      else g.edge t := by
  by_cases hgroups : Parens.Groups g p
  · by_cases hin : Parens.Encloses p t
    · let F (e : Edge) : Edge := if e.isIn p then e else .grouped s unit p.1 t
      have hself (g' : Graph) (hg' : g'.size = g.size) :
          (encloseToken s unit p.1 p.2 g' t).edge t = F (g'.edge t) :=
        edge_encloseToken (hg' ▸ ht) (Nat.ne_of_lt hin.1)
      have hinterior : (Span.interior ⟨p.1, p.2⟩).Nodup := .filter _ List.nodup_range'
      have hbracket : (g.isBracket p.1 || g.isBracket p.2) = false := by rw [hgroups.1, hgroups.2]; rfl
      have hinner : (g.write s unit (.enclose p.1 p.2)).edge t = F (g.edge t) := by
        rw [write, enclose, hbracket, edge_align_of_ne (.inl (Ne.symm hne)), if_neg Bool.false_ne_true]
        exact edge_foldl_of_mem hself (fun g i hi => edge_encloseToken_of (.inl hi))
          (fun g i => size_encloseToken p.1 p.2 i) hinterior (Span.mem_interior.2 hin) rfl
      rw [hinner]
      cases hanchored : (g.edge t).isIn p with
      | true =>
        rw [if_neg fun h => Bool.false_ne_true h.2.2.symm]
        exact if_pos hanchored
      | false =>
        rw [if_pos ⟨hgroups, hin, rfl⟩]
        exact if_neg (Bool.eq_false_iff.1 hanchored)
    · rw [if_neg fun h => hin h.2.1]
      exact edge_enclose_of hne (.inr hin)
  · rw [if_neg fun h => hgroups h.1]
    refine edge_enclose_of_isBracket hne ?_
    by_contra hno
    rw [not_or, Bool.not_eq_true, Bool.not_eq_true] at hno
    exact hgroups hno

theorem groups_enclose (p q : Nat × Nat) :
    Parens.Groups (g.write s unit (.enclose p.1 p.2)) q ↔ Parens.Groups g q := by
  rw [Parens.Groups, Parens.Groups, isBracket, isBracket, brackets_enclose]
  rfl

/-! ## All pairs -/

/-- Of pairs that come with those around them first, the innermost one that groups a token has the last
word on it. -/
theorem edge_foldl_enclose {ps : List (Nat × Nat)} (hps : ps.Pairwise Parens.Around) (ht : t < g.size)
    (hne : ∀ p ∈ ps, t ≠ p.2) {e : Edge}
    (he : (g.writeAll s unit (ps.map fun (left, right) => .enclose left right)).edge t = e) :
    (∀ p ∈ ps, Parens.Groups g p → ¬Parens.Encloses p t) ∧ e = g.edge t ∨
    ∃ p, Parens.Innermost g ps t p ∧
      e = if (g.edge t).isIn p then g.edge t else .grouped s unit p.1 t := by
  induction ps generalizing g with
  | nil => exact .inl ⟨nofun, he.symm⟩
  | cons p ps ih =>
    obtain ⟨haround, hrest⟩ := List.pairwise_cons.1 hps
    obtain ⟨hnep, hneps⟩ := List.forall_mem_cons.1 hne
    have hp : (g.write s unit (.enclose p.1 p.2)).edge t = _ := edge_enclose ht hnep
    have hsize : t < (g.write s unit (.enclose p.1 p.2)).size := by rwa [size_write]
    rcases ih hrest hsize hneps he with ⟨hnone, heq⟩ | ⟨q, hq, heq⟩
    · -- No other pair groups the token, so it is the first pair or none.
      simp only [groups_enclose] at hnone
      rw [heq, hp]
      by_cases hin : Parens.Groups g p ∧ Parens.Encloses p t
      · refine .inr ⟨p, ⟨List.mem_cons_self, hin.1, hin.2, ?_⟩, ?_⟩
        · refine List.forall_mem_cons.2 ⟨fun _ _ => ⟨Nat.le_refl _, Nat.le_refl _⟩, ?_⟩
          exact fun r hr hgroups hencloses => absurd hencloses (hnone r hr hgroups)
        · cases (g.edge t).isIn p <;> simp [hin.1, hin.2]
      · refine .inl ⟨List.forall_mem_cons.2 ⟨fun hgroups hencloses => hin ⟨hgroups, hencloses⟩, hnone⟩, ?_⟩
        exact if_neg fun h => hin ⟨h.1, h.2.1⟩
    · -- The innermost of the others is inside the first pair, if that groups the token too.
      have hinner (hencloses : Parens.Encloses p t) : p.1 < q.1 ∧ q.2 < p.2 :=
        (haround q hq.mem).resolve_left fun hlt =>
          Nat.lt_asymm hlt (Nat.lt_trans hencloses.1 hq.encloses.2)
      refine .inr ⟨q, ⟨List.mem_cons_of_mem p hq.mem, (groups_enclose p q).1 hq.groups, hq.encloses, ?_⟩, ?_⟩
      · refine List.forall_mem_cons.2 ⟨fun _ hencloses => ?_, fun r hr hgroups => ?_⟩
        · exact ⟨Nat.le_of_lt (hinner hencloses).1, Nat.le_of_lt (hinner hencloses).2⟩
        · exact hq.least r hr ((groups_enclose p r).2 hgroups)
      · rw [heq, hp]
        split
        · next htaken =>
          -- The first pair took the token in, so it is anchored outside the innermost one.
          have hlt := hinner htaken.2.1
          have hout : (g.edge t).isIn q = false := by
            refine Bool.eq_false_iff.2 fun hin => ?_
            exact nomatch (Edge.isIn_of_inner hlt hin).symm.trans htaken.2.2
          have hleft : (Edge.grouped s unit p.1 t).isIn q = false := by
            refine Bool.eq_false_iff.2 fun hin => ?_
            obtain ⟨a, ha, hencloses⟩ := Edge.isIn_iff.1 hin
            obtain rfl := Option.some.inj ha
            exact Nat.lt_asymm hlt.1 hencloses.1
          rw [hout, hleft]
          rfl
        · rfl

end Graph

namespace Parens

variable {s : TokenStream} {g : Graph} {unit : Nat}

@[simp] theorem brackets_writes : (g.writeAll s unit (writes s)).brackets = g.brackets := by
  apply Graph.writeAll_of_write (Q := fun g' => g'.brackets = g.brackets) ?_ rfl rfl
  intro w hw g' _ hg'
  obtain ⟨p, -, rfl⟩ := List.mem_map.1 hw
  rw [Graph.brackets_enclose, hg']

@[simp] theorem exempted_writes : (g.writeAll s unit (writes s)).exempted = g.exempted := by
  apply Graph.writeAll_of_write (Q := fun g' => g'.exempted = g.exempted) ?_ rfl rfl
  intro w hw g' _ hg'
  obtain ⟨p, -, rfl⟩ := List.mem_map.1 hw
  rw [Graph.exempted_enclose, hg']

theorem isBracket_writes (token : Nat) :
    (g.writeAll s unit (writes s)).isBracket token = g.isBracket token := by
  rw [Graph.isBracket, brackets_writes, ← Graph.isBracket]

/-- Parentheses leave alone what they do not group. -/
theorem edge_writes_of_ungrouped {t : Nat} (hne : ∀ p ∈ pairs s, t ≠ p.2)
    (h : ∀ p ∈ pairs s, g.isBracket p.1 = false → g.isBracket p.2 = false → ¬(p.1 < t ∧ t < p.2)) :
    (g.writeAll s unit (writes s)).edge t = g.edge t := by
  by_cases ht : t < g.size
  · rcases Graph.edge_foldl_enclose (pairwise_around s) ht hne rfl with ⟨-, hedge⟩ | ⟨p, hp, -⟩
    · exact hedge
    · exact absurd hp.encloses (h p hp.mem hp.groups.1 hp.groups.2)
  · have hle := Nat.le_of_not_lt ht
    rw [Graph.edge_of_size_le hle, Graph.edge_of_size_le (by rwa [Graph.size_writeAll])]

/-- Nothing between the parentheses of a pair that groups it is anchored before the first of them. -/
theorem exists_anchor_of_encloses (hsize : g.size = s.size) {p : Nat × Nat} (hp : p ∈ pairs s)
    (hgroups : Groups g p) {t : Nat} (ht : Encloses p t) :
    ∃ a, (g.writeAll s unit (writes s)).anchor? t = some a ∧ p.1 ≤ a := by
  by_cases hclosing : ∃ q ∈ pairs s, t = q.2
  · -- A parenthesis that closes a pair inside is anchored to the one that opens it.
    obtain ⟨q, hq, rfl⟩ := hclosing
    refine ⟨q.1, congrArg Edge.anchor (edge_writes_of_mem hq hsize), ?_⟩
    have hne : p ≠ q := by
      rintro rfl
      exact Nat.lt_irrefl _ ht.2
    have hlt := (lt_of_mem_pairs hq).1
    obtain ⟨hleft, hright⟩ := ht
    rcases nested_or_apart hp hq hne with (happart | hinside) | (happart | hinside) <;> omega
  · have hne : ∀ q ∈ pairs s, t ≠ q.2 := fun q hq heq => hclosing ⟨q, hq, heq⟩
    have hlt : t < g.size := hsize ▸ Nat.lt_trans ht.2 (lt_of_mem_pairs hp).2.1
    rcases Graph.edge_foldl_enclose (pairwise_around s) hlt hne rfl with ⟨hnone, -⟩ | ⟨q, hq, hedge⟩
    · exact absurd ht (hnone p hp hgroups)
    · have hle := (hq.least p hp hgroups ht).1
      rw [writes, Graph.anchor?, hedge]
      split
      · next hin =>
        obtain ⟨a, ha, hencloses⟩ := Edge.isIn_iff.1 hin
        exact ⟨a, ha, Nat.le_trans hle (Nat.le_of_lt hencloses.1)⟩
      · exact ⟨q.1, rfl, hle⟩

/-- All pairs are nested or apart, whether or not every parenthesis has its other one.  When they have
been written, the second parenthesis of each pair stands level with the first.  Any other token is taken
in by the innermost pair that groups it, unless it was anchored inside that from the start, or there
is none: then it is left alone.  So nothing in a pair that groups it is anchored before the pair, and which tokens
are exempt and which parentheses belong to lists stays as it was. -/
theorem edge_writes_innermost (s : TokenStream) (unit : Nat) (g : Graph) (hsize : g.size = s.size) :
    let g' := g.writeAll s unit (writes s)
    (∀ p ∈ pairs s, ∀ q ∈ pairs s, p ≠ q → Around p q ∨ Around q p) ∧
    (∀ p ∈ pairs s, g'.edge p.2 = ⟨some p.1, 0⟩) ∧
    (∀ t < s.size, (∀ p ∈ pairs s, t ≠ p.2) →
      (∀ p ∈ pairs s, Groups g p → ¬Encloses p t) ∧ g'.edge t = g.edge t ∨
      ∃ p, Innermost g (pairs s) t p ∧
        g'.edge t = if (g.edge t).isIn p then g.edge t else .grouped s unit p.1 t) ∧
    (∀ p ∈ pairs s, Groups g p → ∀ t, Encloses p t → ∃ a, g'.anchor? t = some a ∧ p.1 ≤ a) ∧
    g'.exempted = g.exempted ∧ g'.brackets = g.brackets := by
  refine ⟨fun p hp q hq => nested_or_apart hp hq, fun p hp => edge_writes_of_mem hp hsize, ?_, ?_,
    exempted_writes, brackets_writes⟩
  · intro t ht hne
    exact Graph.edge_foldl_enclose (pairwise_around s) (hsize ▸ ht) hne rfl
  · intro p hp hgroups t ht
    exact exists_anchor_of_encloses hsize hp hgroups ht

/-- A pair inside another one, on four lines, and a parenthesis too many. -/
def surplusStream : TokenStream :=
  let sign (text : Text) (line : Nat) : Token := ⟨.punctuator, .point 0, text, [], line, line, 0⟩
  ⟨[], #[sign ['('] 1, sign ['!'] 2, sign ['('] 2, sign ['!'] 3, sign [')'] 3, sign [')'] 4, sign [')'] 4], #[]⟩

theorem edge_writes_innermost_surplusStream :
    let g' := (Graph.blank 7).writeAll surplusStream 4 (writes surplusStream)
    pairs surplusStream = [(0, 5), (2, 4)] ∧ g'.edge 4 = ⟨some 2, 0⟩ ∧
      (∃ a, g'.anchor? 3 = some a ∧ 2 ≤ a) ∧ g'.edge 3 = ⟨some 2, 4⟩ ∧ g'.edge 6 = .margin := by
  obtain ⟨-, hclosing, -, hanchored, -⟩ := edge_writes_innermost surplusStream 4 (.blank 7) rfl
  have hpair : (2, 4) ∈ pairs surplusStream := by decide
  exact ⟨rfl, hclosing (2, 4) hpair, hanchored (2, 4) hpair ⟨rfl, rfl⟩ 3 (by decide), rfl, rfl⟩

end Parens

end Indentation
