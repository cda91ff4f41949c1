import Indentation.Proofs.Layout.Bounds

/-!
# Widths are sums

Following anchors from a token either ends, at a token that may stand where it is or at one without an
anchor, or it goes round.  If it ends, the width of the token is the sum of the width at the end and of
all offsets on the way, as far as the limit of widths allows.  If it goes round for some token, the graph
does not resolve.  Neither depends on the tokens that the search starts from.
-/

namespace Indentation.Graph

/-- The anchors of a token end at a base.  The base is the margin of a token that may stand where it is,
and then the sum is that of the offsets before it.  Otherwise the base is the margin of the page, and the
sum has the offset of the last token too. -/
inductive Ends (s : TokenStream) (c : IndentChar) (g : Graph) : Nat → Nat → Nat → Prop
  | exempt {t : Nat} (hexempt : g.isExempt t = true) : Ends s c g t ((s.marginOf t).good c) 0
  | free {t : Nat} (hexempt : g.isExempt t = false) (hanchor : g.anchor? t = none) :
      Ends s c g t 0 (g.edge t).offset
  | anchored {t a base sum : Nat} (hexempt : g.isExempt t = false) (hanchor : g.anchor? t = some a)
      (hends : Ends s c g a base sum) : Ends s c g t base (sum + (g.edge t).offset)

variable {s : TokenStream} {c : IndentChar} {g : Graph}

/-- The width at the end of a chain. -/
def total (g : Graph) (t base sum : Nat) : Nat :=
  if g.isExempt t then base else min (base + sum) widthLimit

theorem Ends.settles (hg : g.Bounded) {t base sum : Nat} (h : Ends s c g t base sum) :
    Settles s c g t (g.total t base sum) := by
  induction h with
  | @exempt t hexempt =>
    rw [total, if_pos hexempt]
    exact .exempt hexempt
  | @free t hexempt hanchor =>
    rw [total, hexempt, if_neg Bool.false_ne_true, Nat.zero_add, Nat.min_eq_left (hg t)]
    exact .free hexempt hanchor
  | @anchored t a base sum hexempt hanchor hends ih =>
    have hwidth : g.total t base (sum + (g.edge t).offset) = Width.add (g.total a base sum) (g.edge t).offset := by
      rw [total, hexempt, if_neg Bool.false_ne_true, total, Width.add]
      split
      · next hexempt' =>
        -- The offset of the base itself does not count.
        cases hends with
        | exempt => rw [Nat.zero_add]
        | free hnot => exact absurd (hnot.symm.trans hexempt') Bool.false_ne_true
        | anchored hnot => exact absurd (hnot.symm.trans hexempt') Bool.false_ne_true
      · omega
    rw [hwidth]
    exact .anchored hexempt hanchor ih

theorem Settles.exists_ends {t width : Nat} (h : Settles s c g t width) :
    ∃ base sum, Ends s c g t base sum := by
  induction h with
  | exempt hexempt => exact ⟨_, _, .exempt hexempt⟩
  | free hexempt hanchor => exact ⟨_, _, .free hexempt hanchor⟩
  | anchored hexempt hanchor _ ih =>
    obtain ⟨base, sum, hends⟩ := ih
    exact ⟨base, _, .anchored hexempt hanchor hends⟩

/-- Widths that are found are the same from whichever tokens the search starts. -/
theorem resolveFrom_eq_resolve (hg : g.Anchored s) {starts : List Nat}
    (hstarts : ∀ t, t ∈ starts ↔ t < s.size) {widths : Array Nat}
    (h : g.resolveFrom s c starts = .ok widths) : g.resolve s c = .ok widths := by
  rcases resolveFrom_cases (c := c) hg hstarts with ⟨found, hfound, hsize, hsettles⟩ | ⟨t, _, hcycle, _⟩
  · obtain rfl := Except.ok.inj (hfound.symm.trans h)
    rcases resolveFrom_cases (c := c) hg fun t => (List.mem_range : t ∈ s.ids ↔ _) with
      ⟨found', hfound', hsize', hsettles'⟩ | ⟨t, _, _, ht, hnot⟩
    · suffices heq : found' = found from heq ▸ hfound'
      refine Array.ext (hsize'.trans hsize.symm) fun t ht' ht => ?_
      have hwidth := (hsettles' t (hsize' ▸ ht')).unique (hsettles t (hsize ▸ ht))
      simpa [ht, ht'] using hwidth
    · exact absurd (hsettles t ht) (hnot _)
  · exact nomatch h.symm.trans hcycle

/-- Whichever tokens the search starts from, as long as it comes to all: it ends.  It fails only with a
cycle, and it does so if and only if the anchors of some token do not end.  Otherwise a token that
may stand where it is keeps the margin of its line, and the width of any other is the base of
its anchors with all their offsets, at most the limit.  These widths are those of the graph. -/
theorem resolveFrom_eq_total (s : TokenStream) (c : IndentChar) (g : Graph) (hbounded : g.Bounded)
    (hg : g.Anchored s) (starts : List Nat) (hstarts : ∀ t, t ∈ starts ↔ t < s.size) :
    ((∃ e, g.resolveFrom s c starts = .error e) ↔ ∃ t < s.size, ∀ base sum, ¬Ends s c g t base sum) ∧
    (∀ e, g.resolveFrom s c starts = .error e → ∃ token anchor, e = .cycle token anchor) ∧
    ∀ widths, g.resolveFrom s c starts = .ok widths →
      g.resolve s c = .ok widths ∧ widths.size = s.size ∧ ∀ t < s.size,
        (g.isExempt t = true → widths.getD t 0 = (s.marginOf t).good c) ∧
        (g.isExempt t = false → ∃ base sum, Ends s c g t base sum ∧
          widths.getD t 0 = min (base + sum) widthLimit) := by
  rcases resolveFrom_cases (c := c) hg hstarts with ⟨widths, hwidths, hsize, hsettles⟩ |
    ⟨t, anchor, hcycle, ht, hnot⟩
  · have hno (e : Unresolved) : g.resolveFrom s c starts ≠ .error e :=
      fun he => nomatch hwidths.symm.trans he
    refine ⟨⟨fun ⟨e, he⟩ => absurd he (hno e), ?_⟩, fun e he => absurd he (hno e), fun widths' hwidths' => ?_⟩
    · rintro ⟨t, ht, hnot⟩
      obtain ⟨base, sum, hends⟩ := (hsettles t ht).exists_ends
      exact absurd hends (hnot base sum)
    · obtain rfl := Except.ok.inj (hwidths.symm.trans hwidths')
      refine ⟨resolveFrom_eq_resolve hg hstarts hwidths, hsize, fun t ht => ⟨fun hexempt => ?_, fun hexempt => ?_⟩⟩
      · exact (hsettles t ht).unique (.exempt hexempt)
      · obtain ⟨base, sum, hends⟩ := (hsettles t ht).exists_ends
        refine ⟨base, sum, hends, ((hsettles t ht).unique (hends.settles hbounded)).trans ?_⟩
        rw [total, hexempt, if_neg Bool.false_ne_true]
  · have hnone (base sum : Nat) : ¬Ends s c g t base sum := fun hends => hnot _ (hends.settles hbounded)
    refine ⟨⟨fun _ => ⟨t, ht, hnone⟩, fun _ => ⟨_, hcycle⟩⟩, fun e he => ?_, fun widths hwidths => ?_⟩
    · exact ⟨t, anchor, Except.error.inj (he.symm.trans hcycle)⟩
    · exact nomatch hwidths.symm.trans hcycle

/-! ## A cycle that does not matter -/

/-- Three tokens, the first of them two spaces in. -/
def roundStream : TokenStream :=
  ⟨[], #[⟨.identifier, .point 0, [], [' ', ' '], 1, 1, 2⟩, default, default], #[]⟩

/-- The anchors go round, but the first token may stand where it is. -/
def roundGraph : Graph :=
  ⟨#[⟨some 2, 5⟩, ⟨some 0, 4⟩, ⟨some 1, widthLimit⟩], #[true, false, false], #[false, false, false]⟩

theorem resolveFrom_eq_total_roundGraph :
    roundGraph.resolveFrom roundStream .space [2, 0, 1] = .ok #[2, 6, widthLimit] ∧
      roundGraph.resolve roundStream .space = .ok #[2, 6, widthLimit] := by
  have hbounded : roundGraph.Bounded := fun t =>
    match t with
    | 0 | 1 | 2 => by decide
    | _ + 3 => Nat.zero_le _
  have hanchored : roundGraph.Anchored roundStream := fun t ht a ha =>
    match t, ht with
    | 0, _ => Option.some.inj ha ▸ (by decide : 2 < 3)
    | 1, _ => Option.some.inj ha ▸ (by decide : 0 < 3)
    | 2, _ => Option.some.inj ha ▸ (by decide : 1 < 3)
  have hstarts (t : Nat) : t ∈ [2, 0, 1] ↔ t < roundStream.size := by
    change t ∈ [2, 0, 1] ↔ t < 3
    simp only [List.mem_cons, List.not_mem_nil, or_false]
    omega
  obtain ⟨-, -, hwidths⟩ := resolveFrom_eq_total roundStream .space roundGraph hbounded hanchored
    [2, 0, 1] hstarts
  exact ⟨rfl, (hwidths _ rfl).1⟩

end Indentation.Graph
