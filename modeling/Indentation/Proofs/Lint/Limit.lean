import Indentation.Proofs.Lint.Chain

/-!
# The limit of passes

A text that takes no more passes than the limit allows comes to rest.  Among them are all texts with no
more lines than that.  A chain of lists that is longer is left with its last lines out of place.
-/

namespace Indentation

open Text Lines

namespace IndentRule

variable {o : IndentOptions} {source : Text} {tree : Node} {level : Applicability}

theorem Readable.found_eq_nil {k : Nat} {r : Linter.Round} (h : Readable r.source r.tree)
    (hfound : (linter o).lintTree k r.source r.tree = .ok r.found)
    (hwanted : Linter.wantedEdits level r.found = []) :
    r.found = [] ∧ ∀ j, (linter o).lintTree j r.source r.tree = .ok [] := by
  obtain ⟨s, widths, -, -, -, hlook, -⟩ := h.exists_look o level
  have heq := Except.ok.inj ((hlook k).symm.trans hfound)
  have hnil := findings_eq_nil_of_wantedEdits (o := o) (heq ▸ hwanted)
  exact ⟨heq.symm.trans hnil, fun j => (hlook j).trans (congrArg _ hnil)⟩

/-- Fixing comes to rest unless the limit cuts it off.  In the end nothing is left to report, and fixing
once more changes nothing.  Or else all passes that the limit allows have been made, the text has more
lines than that, and what is left lies below as many lines. -/
theorem exists_settled (h : Readable source tree) (o : IndentOptions) (level : Applicability)
    (parse : Parser)
    (hparse : ∀ k r, (linter o).rounds level source tree k = some r → parse k r.source = some r.tree) :
    ∃ st r, (linter o).fix parse level source = .ok st ∧
      (linter o).rounds level source tree st.passes = some r ∧ st.source = r.source ∧
      st.remaining = r.found ∧
      ((st.remaining = [] ∧ ∀ again : Parser, again 0 st.source = some r.tree →
          (linter o).fix again level st.source = .ok ⟨st.source, 0, 0, []⟩) ∨
        st.passes = Linter.passLimit ∧ Linter.passLimit < (Lines.of source).count ∧
          ∃ line, r.firstLine? level = some line ∧ Linter.passLimit < line) := by
  have hsteps : (linter o).Steps level source tree := h.steps
  obtain ⟨r₀, hr₀, hsource, hlint⟩ := h.exists_lint hparse
  obtain ⟨st, r, hfix, hr, hst, hremaining, hle, hdone, -⟩ := Linter.exists_fixFrom hparse
    (fun k r hr hwanted => h.exists_next hr hwanted) hr₀ Linter.passLimit 0
  obtain ⟨hread, hfound⟩ := h.of_rounds hr
  rw [hsource] at hfix
  refine ⟨st, r, by rw [Linter.fix, hlint]; exact hfix, hr, hst, hremaining, ?_⟩
  by_cases hwanted : Linter.wantedEdits level r.found = []
  · obtain ⟨hnil, hlook⟩ := hread.found_eq_nil hfound hwanted
    refine .inl ⟨hremaining.trans hnil, fun again hagain => Linter.fix_of_lint_nil ?_⟩
    rw [Linter.lint, hagain, hst]
    exact hlook 0
  · obtain ⟨r', hnext⟩ := h.exists_next hr hwanted
    obtain ⟨line, hstep⟩ := hsteps _ r r' hr hnext
    have hlt := Linter.lt_of_step hsteps hr hstep
    have hcount := hstep.le_count
    rw [Linter.count_eq_of_rounds hsteps hr] at hcount
    have hpasses : st.passes = Linter.passLimit := by
      by_contra hne
      exact hwanted (hremaining ▸ hdone (by omega))
    rw [hpasses] at hlt
    exact .inr ⟨hpasses, by omega, line, hstep.firstLine?_eq, hlt⟩

/-- A list on two lines comes to rest. -/
theorem exists_settled_listTree :
    let l := linter { IndentOptions.standard with array := .first }
    let parse : Parser := fun k _ => (l.rounds .safe listText listTree k).map Linter.Round.tree
    ∃ st, l.fix parse .safe listText = .ok st ∧ st.remaining = [] := by
  intro l parse
  obtain ⟨st, r, hfix, -, -, -, ⟨hnil, -⟩ | ⟨-, hcount, -⟩⟩ := exists_settled readable_listTree
    { IndentOptions.standard with array := .first } .safe parse fun k r hr =>
      congrArg (Option.map Linter.Round.tree) hr
  · exact ⟨st, hfix, hnil⟩
  · exact absurd hcount (by decide)

/-! ## A chain of more lines than passes -/

/-- Arrays within each other, each on a line of its own. -/
def nestText : Nat → Text
  | 0 => ['a']
  | depth + 1 => ['[', 'a', ',', '\n'] ++ nestText depth ++ [']']

def nestTree : Nat → Nat → Node
  | 0, start => plain "identifier" (bytes start 1) true []
  | depth + 1, start =>
    plain "array" (bytes start (5 * depth + 6)) true
      [plain "[" (bytes start 1) false [], plain "identifier" (bytes (start + 1) 1) true [],
        plain "," (bytes (start + 2) 1) false [], nestTree depth (start + 4),
        plain "]" (bytes (start + 5 * depth + 5) 1) false []]

/-- Ten arrays on eleven lines, of which only the first one stands further in. -/
def deepText : Text := List.replicate 5 ' ' ++ nestText 10 ++ [';']

def deepTree : Node :=
  plain "program" (bytes 5 52) true
    [plain "expression_statement" (bytes 5 52) true [nestTree 10 5, plain ";" (bytes 56 1) false []]]

/-- What a line opens with. -/
def deepOpening (line : Nat) : List Token :=
  let margin := if line = 1 then List.replicate 5 ' ' else []
  [⟨.punctuator, bytes (4 * line + 1) 1, ['['], margin, line, line, margin.length⟩,
    ⟨.identifier, bytes (4 * line + 2) 1, ['a'], margin ++ ['['], line, line, margin.length + 1⟩,
    ⟨.punctuator, bytes (4 * line + 3) 1, [','], margin ++ ['[', 'a'], line, line, margin.length + 2⟩]

/-- The last line. -/
def deepClosing : List Token :=
  ⟨.identifier, bytes 45 1, ['a'], [], 11, 11, 0⟩ ::
    (List.range' 1 10).map (fun column =>
      ⟨.punctuator, bytes (column + 45) 1, [']'], 'a' :: List.replicate (column - 1) ']', 11, 11, column⟩) ++
    [⟨.punctuator, bytes 56 1, [';'], 'a' :: List.replicate 10 ']', 11, 11, 11⟩]

def deepStream : TokenStream where
  source := deepText
  tokens := ((List.range' 1 10).flatMap deepOpening ++ deepClosing).toArray
  leaders := (none :: (List.range 11).map (fun i => some (3 * i)) ++ [none]).toArray

theorem ofTree_deepTree : TokenStream.ofTree deepText deepTree = .ok deepStream := by
  rw [TokenStream.ofTree_of_pairwise (by decide)]
  decide +kernel

theorem wellFormed_deepTree : deepTree.WellFormed deepText where
  inside := by decide
  ordered := by decide
  substituted := by unfold Node.Substituted; decide
  cuts := by decide
  clear := .of_flat (by decide) (by decide) (by decide) (by decide)

theorem readable_deepTree : Readable deepText deepTree :=
  .of_unnamed wellFormed_deepTree rfl (by unfold MarksInside Operation.IsMark; decide)
    ofTree_deepTree (by with_unfolding_all decide) (by with_unfolding_all decide) (by with_unfolding_all decide)

theorem separated_deepTree : ∀ c ∈ deepTree.preorder, Construct.ofPlace? c = some .array →
    ∀ span, deepStream.spanOfNode? c = some span →
      FirstList.Separated deepStream c span (Sequence.arrayElements c) := by
  have hmem : ∀ {xs : List (Option Cursor)} {e}, some e ∈ xs → e ∈ xs.filterMap id :=
    fun he => List.mem_filterMap.2 ⟨_, he, rfl⟩
  have hnamed : ∀ c ∈ deepTree.preorder, ∀ e ∈ (Sequence.arrayElements c).filterMap id,
      e.named = true ∧ ∀ t ∈ deepStream.firstOf? e, ∀ span ∈ deepStream.spanOfNode? c, t < span.last := by
    with_unfolding_all decide
  have hcommas : ∀ c ∈ deepTree.preorder, ∀ e ∈ ((Sequence.arrayElements c).drop 1).filterMap id,
      ∀ t ∈ deepStream.firstOf? e, ∃ comma ∈ deepStream.prevCode? t,
        deepStream.isPunctuator comma [','] = true := by
    with_unfolding_all decide
  exact fun c hc _ span hspan => {
    adjoins := fun e he => Construct.adjoins_child
      ((Sequence.filterMap_arrayElements c).subset (hmem he))
    named := fun e he => (hnamed c hc e (hmem he)).1
    commas := fun e he t ht => hcommas c hc e (hmem he) t ht
    closes := fun e he t ht => (hnamed c hc e (hmem he)).2 t ht span hspan }

def deepOptions : IndentOptions := { IndentOptions.standard with array := .first }

theorem chain_deepTree : Chain deepOptions 10 (3 * ·) deepStream deepTree where
  array := by
    have hkinds : ∀ c ∈ deepTree.preorder,
        Construct.ofPlace? c = none ∨ Construct.ofPlace? c = some .array := by
      decide
    intro c hc k hk
    rcases hkinds c hc with hnone | harray
    · rw [hnone] at hk
      cases hk
    · exact Option.some.inj (hk.symm.trans harray)
  unheld := by decide
  unbraced := by decide
  bare := by decide
  separated := separated_deepTree
  head_zero := rfl
  head_lt := by decide
  code := by decide
  leads := by decide
  placed := by decide +kernel
  unsuppressed := by decide
  outermost := by decide +kernel
  opens := by decide
  adjacent := by decide
  linked := by
    have hlinked : ∀ i < 10, ∃ c ∈ deepTree.preorder, Construct.ofPlace? c = some .array ∧
        deepStream.spanOfNode? c = some ⟨3 * i, 40 - i⟩ ∧
        (Sequence.arrayElements c).head?.join.bind (Sequence.elementStart? deepStream (3 * i)) =
          some (3 * i + 1) ∧
        ∃ e ∈ ((Sequence.arrayElements c).drop 1).filterMap id,
          Sequence.elementStart? deepStream (3 * i) e = some (3 * (i + 1)) := by
      with_unfolding_all decide
    intro i hi
    obtain ⟨c, hc, harray, hspan, hlead, e, he, ht⟩ := hlinked i hi
    obtain ⟨_, he, rfl⟩ := List.mem_filterMap.1 he
    exact ⟨c, hc, _, e, harray, hspan, hlead, he, ht⟩

theorem margin_deepStream : ∀ i ≤ 10, (deepStream.token (3 * i)).margin =
    Text.fill deepOptions.indentChar.char (if i = 0 then 5 else 0) := by
  decide

/-- Ten passes do not settle eleven lines: a fix is still left that may be made. -/
theorem exists_unsettled_deepTree :
    let l := linter deepOptions
    let parse : Parser := fun k _ => (l.rounds .safe deepText deepTree k).map Linter.Round.tree
    Readable deepText deepTree ∧
      (∀ k r, l.rounds .safe deepText deepTree k = some r → parse k r.source = some r.tree) ∧
      ∃ st, l.fix parse .safe deepText = .ok st ∧
        ∃ f ∈ st.remaining, ∃ fix ∈ f.violation.fix, fix.applies .safe = true := by
  intro l parse
  have hparse : ∀ k r, l.rounds .safe deepText deepTree k = some r → parse k r.source = some r.tree :=
    fun k r hr => congrArg (Option.map Linter.Round.tree) hr
  refine ⟨readable_deepTree, hparse, ?_⟩
  obtain ⟨r₀, hr₀, hsource, hlint⟩ := readable_deepTree.exists_lint hparse
  obtain ⟨st, r, hfix, hr, -, hremaining, hle, -, -⟩ := Linter.exists_fixFrom hparse
    (fun k r hr hwanted => readable_deepTree.exists_next hr hwanted) hr₀ Linter.passLimit 0
  rw [hsource] at hfix
  rw [Nat.zero_add] at hle
  refine ⟨st, by rw [Linter.fix, hlint]; exact hfix, ?_⟩
  obtain ⟨r', hr', hwanted⟩ : ∃ r', l.rounds .safe deepText deepTree st.passes = some r' ∧
      Linter.wantedEdits .safe r'.found ≠ [] :=
    chain_deepTree.exists_late_round rfl readable_deepTree ofTree_deepTree margin_deepStream
      (by decide) hle
  obtain rfl := Option.some.inj (hr.symm.trans hr')
  obtain ⟨line, hline⟩ := Linter.Round.exists_firstLine? hwanted
  obtain ⟨f, hf, -⟩ := Option.map_eq_some_iff.1 hline
  have happlies := List.find?_some hf
  exact ⟨f, hremaining ▸ List.mem_of_find?_eq_some hf, (Option.any_eq_true _ _).1 happlies⟩

end IndentRule

end Indentation
