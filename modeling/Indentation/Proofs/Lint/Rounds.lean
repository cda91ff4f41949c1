import Indentation.Proofs.Lint.Aligned
import Indentation.Proofs.Lint.Progress

/-!
# Rounds of fixing

Fixing looks at a text, carries out the edits that follow, and looks at the text that they leave.  Each
round finds its first line further down than the round before, and all lines above that one stay as they
are.  So no text comes back, and there are no more passes than lines.
-/

namespace Indentation

open Text Lines

namespace Edit

/-- Of some edits one is selected. -/
theorem select_ne_nil {es : List Edit} (h : es ≠ []) : select es ≠ [] := by
  cases hsorted : es.mergeSort fun a b => b.range.start ≤ a.range.start with
  | nil =>
    have hlength : (es.mergeSort fun a b => b.range.start ≤ a.range.start).length = es.length :=
      List.length_mergeSort es
    rw [hsorted] at hlength
    exact absurd (List.eq_nil_of_length_eq_zero hlength.symm) h
  | cons e rest =>
    refine List.ne_nil_of_mem (a := e) ?_
    rw [select, hsorted]
    exact mem_foldl_of_mem rest List.mem_cons_self

end Edit

namespace Finding

theorem atMost_iff {f g : Finding} :
    f.atMost g = true ↔ f.start < g.start ∨ f.start = g.start ∧ f.rule ≤ g.rule := by
  simp [atMost]

theorem atMost_trans (f g k : Finding) (hfg : f.atMost g = true) (hgk : g.atMost k = true) :
    f.atMost k = true := by
  rw [atMost_iff] at *
  rcases hfg with hfg | ⟨hfg, hrule⟩ <;> rcases hgk with hgk | ⟨hgk, hrule'⟩
  · exact .inl (Nat.lt_trans hfg hgk)
  · exact .inl (hgk ▸ hfg)
  · exact .inl (hfg ▸ hgk)
  · exact .inr ⟨hfg.trans hgk, String.le_trans hrule hrule'⟩

theorem atMost_total (f g : Finding) : (f.atMost g || g.atMost f) = true := by
  rw [Bool.or_eq_true, atMost_iff, atMost_iff]
  rcases Nat.lt_trichotomy f.start g.start with h | h | h
  · exact .inl (.inl h)
  · exact (String.le_total f.rule g.rule).imp (fun hle => .inr ⟨h, hle⟩) fun hle => .inr ⟨h.symm, hle⟩
  · exact .inr (.inl h)

end Finding

namespace Linter

/-- A text that is looked at, its tree, and what is found. -/
structure Round where
  source : Text
  tree : Node
  found : List Finding

/-- The first line that a round may fix. -/
def Round.firstLine? (level : Applicability) (r : Round) : Option Nat :=
  (r.found.find? fun f => f.violation.fix.any (·.applies level)).map fun f =>
    (Lines.of r.source).lineOf f.start

/-- Where edits are wanted there is such a line. -/
theorem Round.exists_firstLine? {level : Applicability} {r : Round}
    (h : wantedEdits level r.found ≠ []) : ∃ line, r.firstLine? level = some line := by
  rw [← Option.ne_none_iff_exists', Round.firstLine?, Ne, Option.map_eq_none_iff, List.find?_eq_none]
  intro hnone
  refine h (List.flatMap_eq_nil_iff.2 fun fix hfix => if_neg ?_)
  obtain ⟨f, hf, hfix⟩ := List.mem_filterMap.1 hfix
  have := hnone f hf
  rwa [hfix] at this

/-- Look at a text. -/
def look? (l : Linter) (k : Nat) (source : Text) (tree : Node) : Option Round :=
  (l.lintTree k source tree).toOption.map (Round.mk source tree)

/-- Carry out what a round wants and look again.  The tree is moved along with the text. -/
def next? (l : Linter) (level : Applicability) (k : Nat) (r : Round) : Option Round :=
  if wantedEdits level r.found = [] then none
  else
    let es := Edit.select (wantedEdits level r.found)
    (Edit.applyAll r.source es).toOption.bind fun fixed => l.look? (k + 1) fixed (r.tree.moved es)

/-- The rounds of fixing, as far as there is something to fix. -/
def rounds (l : Linter) (level : Applicability) (source : Text) (tree : Node) : Nat → Option Round
  | 0 => l.look? 0 source tree
  | k + 1 => (rounds l level source tree k).bind (l.next? level k)

variable {l : Linter} {level : Applicability} {source : Text} {tree : Node} {r r' : Round} {k : Nat}

theorem look?_eq_some_iff : l.look? k source tree = some r ↔
    r.source = source ∧ r.tree = tree ∧ l.lintTree k source tree = .ok r.found := by
  rw [look?]
  cases l.lintTree k source tree with
  | error e => simp [Except.toOption]
  | ok found =>
    obtain ⟨source', tree', found'⟩ := r
    simp [Except.toOption, eq_comm]

theorem next?_eq_some_iff : l.next? level k r = some r' ↔ wantedEdits level r.found ≠ [] ∧
    Edit.applyAll r.source (Edit.select (wantedEdits level r.found)) = .ok r'.source ∧
    r'.tree = r.tree.moved (Edit.select (wantedEdits level r.found)) ∧
    l.lintTree (k + 1) r'.source r'.tree = .ok r'.found := by
  rw [next?]
  split
  · next hnil => exact ⟨nofun, fun h => absurd hnil h.1⟩
  · next hne =>
    simp only [ne_eq, hne, not_false_eq_true, true_and]
    cases Edit.applyAll r.source (Edit.select (wantedEdits level r.found)) with
    | error e => simp [Except.toOption]
    | ok fixed =>
      change l.look? (k + 1) fixed _ = some r' ↔ _
      rw [look?_eq_some_iff, Except.ok.injEq]
      constructor
      · rintro ⟨rfl, htree, hfound⟩
        exact ⟨rfl, htree, htree ▸ hfound⟩
      · rintro ⟨rfl, htree, hfound⟩
        exact ⟨rfl, htree, htree ▸ hfound⟩

theorem rounds_succ_eq_some_iff : l.rounds level source tree (k + 1) = some r' ↔
    ∃ r, l.rounds level source tree k = some r ∧ l.next? level k r = some r' :=
  Option.bind_eq_some_iff

/-- There are rounds before a round. -/
theorem exists_of_rounds (hr : l.rounds level source tree k = some r) {j : Nat} (hjk : j ≤ k) :
    ∃ q, l.rounds level source tree j = some q := by
  induction hjk generalizing r with
  | refl => exact ⟨r, hr⟩
  | step _ ih =>
    obtain ⟨q, hq, -⟩ := rounds_succ_eq_some_iff.1 hr
    exact ih hq

/-- Fixing goes from round to round until nothing is wanted or the limit is reached. -/
theorem exists_fixFrom {parse : Parser} (hparse : ∀ k r, l.rounds level source tree k = some r →
      parse k r.source = some r.tree)
    (hnext : ∀ k r, l.rounds level source tree k = some r → wantedEdits level r.found ≠ [] →
      ∃ r', l.next? level k r = some r')
    (hr : l.rounds level source tree k = some r) (left n : Nat) :
    ∃ s r', l.fixFrom parse level left ⟨r.source, n, k, r.found⟩ = .ok s ∧
      l.rounds level source tree s.passes = some r' ∧ s.source = r'.source ∧
      s.remaining = r'.found ∧ s.passes ≤ k + left ∧
      (s.passes < k + left → wantedEdits level s.remaining = []) ∧
      (s.passes = k ∧ s.fixed = n ∨ k < s.passes ∧ n < s.fixed) := by
  induction left generalizing k r n with
  | zero =>
    exact ⟨_, r, rfl, hr, rfl, rfl, Nat.le_refl k, fun h => absurd h (Nat.lt_irrefl k), .inl ⟨rfl, rfl⟩⟩
  | succ left ih =>
    by_cases hwanted : wantedEdits level r.found = []
    · refine ⟨⟨r.source, n, k, r.found⟩, r, ?_, hr, rfl, rfl, Nat.le_add_right k _, fun _ => hwanted,
        .inl ⟨rfl, rfl⟩⟩
      rw [fixFrom, hwanted]
    · obtain ⟨r', hr'⟩ := hnext k r hr hwanted
      have hrounds : l.rounds level source tree (k + 1) = some r' :=
        rounds_succ_eq_some_iff.2 ⟨r, hr, hr'⟩
      obtain ⟨-, happly, -, hlint⟩ := next?_eq_some_iff.1 hr'
      have hpass : l.pass parse ⟨r.source, n, k, r.found⟩ (Edit.select (wantedEdits level r.found)) =
          .ok ⟨r'.source, n + (Edit.select (wantedEdits level r.found)).length, k + 1, r'.found⟩ := by
        have hlint' : l.lint parse (k + 1) r'.source = .ok r'.found := by
          rw [lint, hparse _ _ hrounds]
          exact hlint
        simp only [pass, happly, hlint', LintError.orFault, bind, Except.bind, pure, Except.pure]
      have hpos := List.length_pos_iff.2 (Edit.select_ne_nil hwanted)
      obtain ⟨s, r'', hfix, hs, hsource, hfound, hle, hdone, hcases⟩ :=
        ih hrounds (n + (Edit.select (wantedEdits level r.found)).length)
      refine ⟨s, r'', (fixFrom_of_pass hwanted hpass).trans hfix, hs, hsource, hfound, by omega,
        fun hlt => hdone (by omega), .inr ?_⟩
      omega

/-! ## Steps from the top to the bottom -/

/-- A round and the next one: the lines above the first one that is fixed stay as they are, this line
becomes another one, and what is fixed next lies below it. -/
structure Round.Step (level : Applicability) (line : Nat) (r r' : Round) : Prop where
  firstLine?_eq : r.firstLine? level = some line
  one_le : 1 ≤ line
  le_count : line ≤ (Lines.of r.source).count
  count_eq : (Lines.of r'.source).count = (Lines.of r.source).count
  sameAbove : SameAbove line r.source r'.source
  above_ne : above r'.source (line + 1) ≠ above r.source (line + 1)
  lt : ∀ line' ∈ r'.firstLine? level, line < line'

/-- Every round takes such a step. -/
def Steps (l : Linter) (level : Applicability) (source : Text) (tree : Node) : Prop :=
  ∀ k r r', l.rounds level source tree k = some r → l.next? level k r = some r' →
    ∃ line, r.Step level line r'

section

variable (hsteps : l.Steps level source tree)
include hsteps

/-- A round that takes a step has come to a line with a greater number than its own. -/
theorem lt_of_step {line : Nat} (hr : l.rounds level source tree k = some r)
    (hstep : r.Step level line r') : k < line := by
  induction k generalizing r r' line with
  | zero => exact hstep.one_le
  | succ k ih =>
    obtain ⟨q, hq, hnext⟩ := rounds_succ_eq_some_iff.1 hr
    obtain ⟨line', hstep'⟩ := hsteps k q r hq hnext
    have := ih hq hstep'
    have := hstep'.lt line hstep.firstLine?_eq
    omega

/-- All rounds look at the same number of lines. -/
theorem count_eq_of_rounds (hr : l.rounds level source tree k = some r) :
    (Lines.of r.source).count = (Lines.of source).count := by
  induction k generalizing r with
  | zero => rw [(look?_eq_some_iff.1 hr).1]
  | succ k ih =>
    obtain ⟨q, hq, hnext⟩ := rounds_succ_eq_some_iff.1 hr
    obtain ⟨line, hstep⟩ := hsteps k q r hq hnext
    rw [hstep.count_eq, ih hq]

/-- There are no more passes than lines. -/
theorem le_count_of_rounds (hr : l.rounds level source tree k = some r) :
    k ≤ (Lines.of source).count := by
  cases k with
  | zero => exact Nat.zero_le _
  | succ k =>
    obtain ⟨q, hq, hnext⟩ := rounds_succ_eq_some_iff.1 hr
    obtain ⟨line, hstep⟩ := hsteps k q r hq hnext
    have hlt := lt_of_step hsteps hq hstep
    have hle := hstep.le_count
    rw [count_eq_of_rounds hsteps hq] at hle
    omega

/-- The first line that a round fixes stays as the round leaves it. -/
theorem above_eq_of_rounds {j line : Nat} {q : Round} (hq : l.rounds level source tree j = some q)
    (hnext : l.next? level j q = some r) (hstep : q.Step level line r) {i : Nat}
    (hi : l.rounds level source tree (j + 1 + i) = some r') :
    above r'.source (line + 1) = above r.source (line + 1) ∧
      ∀ line' ∈ r'.firstLine? level, line < line' := by
  induction i generalizing r' with
  | zero =>
    obtain rfl : r = r' := Option.some.inj
      ((rounds_succ_eq_some_iff.2 ⟨q, hq, hnext⟩).symm.trans hi)
    exact ⟨rfl, hstep.lt⟩
  | succ i ih =>
    obtain ⟨p, hp, hnextp⟩ := rounds_succ_eq_some_iff.1 hi
    obtain ⟨habove, hbelow⟩ := ih hp
    obtain ⟨m, hstepp⟩ := hsteps _ p r' hp hnextp
    have hlt := hbelow m hstepp.firstLine?_eq
    have hle := hstepp.le_count
    have hsame := hstepp.sameAbove.mono (Nat.le_add_left 1 line) hlt hle (hstepp.count_eq ▸ hle)
    exact ⟨by rw [← hsame.above_eq, habove], fun line' h => Nat.lt_trans hlt (hstepp.lt line' h)⟩

/-- No text comes back. -/
theorem source_ne_of_rounds {j : Nat} {q : Round} (hjk : j < k)
    (hq : l.rounds level source tree j = some q) (hr : l.rounds level source tree k = some r) :
    r.source ≠ q.source := by
  obtain ⟨p, hp⟩ := exists_of_rounds hr hjk
  obtain ⟨q', hq', hnext⟩ := rounds_succ_eq_some_iff.1 hp
  obtain rfl : q = q' := Option.some.inj (hq.symm.trans hq')
  obtain ⟨line, hstep⟩ := hsteps j q p hq hnext
  obtain ⟨i, rfl⟩ := Nat.exists_eq_add_of_le hjk
  intro hsource
  refine hstep.above_ne ?_
  rw [← (above_eq_of_rounds hsteps hq hnext hstep hr).1, hsource]

end

end Linter

namespace IndentRule

variable {o : IndentOptions} {source : Text} {tree : Node} {s : TokenStream} {level : Applicability}

/-- The first line that a round may fix is the line of the first token that is reported. -/
theorem exists_isFirst {r : Linter.Round} {line : Nat} (hl : s.Lined)
    (hcut : s.CutFrom r.source r.tree.pieces) {c : IndentChar} {g : Graph} {widths : Array Nat}
    (hfound : findings o s (Mismatch.all s c g widths) = r.found)
    (hline : r.firstLine? level = some line) :
    ∃ t, IsFirst s (Mismatch.all s c g widths) t ∧ (s.token t).startLine = line := by
  have hms : ∀ m ∈ Mismatch.all s c g widths, m.token < s.size := fun m hm => by
    obtain ⟨u, hu, rfl, -⟩ := Mismatch.mem_all.1 hm
    exact hu
  generalize Mismatch.all s c g widths = ms at hms hfound ⊢
  obtain ⟨f, hf, rfl⟩ := Option.map_eq_some_iff.1 hline
  rw [← hfound] at hf
  have hfixable : ∀ f ∈ findings o s ms, f.violation.fix.any (·.applies level) = true := by
    intro f hf
    obtain ⟨m, -, rfl⟩ := List.mem_map.1 (List.mem_mergeSort.1 hf)
    cases level <;> rfl
  obtain ⟨-, before, behind, hsplit, hbefore⟩ := List.find?_eq_some_iff_append.1 hf
  have hnil : before = [] := by
    refine List.eq_nil_iff_forall_not_mem.2 fun d hd => ?_
    have := hbefore d hd
    rw [hfixable d (hsplit ▸ List.mem_append_left _ hd)] at this
    cases this
  subst hnil
  rw [List.nil_append] at hsplit
  have hsorted : (findings o s ms).Pairwise fun f g => f.atMost g = true :=
    List.pairwise_mergeSort Finding.atMost_trans Finding.atMost_total _
  rw [hsplit] at hsorted
  have hmem : f ∈ findings o s ms := hsplit ▸ List.mem_cons_self
  obtain ⟨m, hm, rfl⟩ := List.mem_map.1 (List.mem_mergeSort.1 hmem)
  have hm₁ := hms m (List.mem_filter.1 hm).1
  refine ⟨m.token, ⟨⟨m, hm, rfl⟩, fun m' hm' => ?_⟩, (hcut.lineOf_start hm₁).symm⟩
  have hmem' : finding o s m' ∈ findings o s ms := List.mem_mergeSort.2 (List.mem_map_of_mem hm')
  have hle : (s.token m.token).start ≤ (s.token m'.token).start := by
    rw [hsplit] at hmem'
    rcases List.mem_cons.1 hmem' with heq | hmem'
    · exact Nat.le_of_eq (congrArg Finding.start heq).symm
    · have := Finding.atMost_iff.1 ((List.pairwise_cons.1 hsorted).1 _ hmem')
      exact this.elim Nat.le_of_lt fun h => Nat.le_of_eq h.1
  by_contra hlt
  have := hl.stop_le_start m'.token m.token (Nat.lt_of_not_le hlt) hm₁
  have := hl.start_lt_stop m'.token (hms m' (List.mem_filter.1 hm').1)
  omega

/-- What a text shows that can be relied on: its tokens, their widths, and the pass that follows. -/
theorem Readable.exists_look (h : Readable source tree) (o : IndentOptions) (level : Applicability) :
    ∃ s widths, TokenStream.ofTree source tree = .ok s ∧ s.CutFrom source tree.pieces ∧ s.Lined ∧
      let found := findings o s (Mismatch.all s o.indentChar (graph o tree s) widths)
      (∀ k, (linter o).lintTree k source tree = .ok found) ∧
        ∃ fixed s', Pass o source tree s widths (Edit.select (Linter.wantedEdits level found)) fixed
          s' := by
  obtain ⟨s, hs, hcut, hl⟩ := h.exists_ofTree
  obtain ⟨found, hfound⟩ : ∃ found, (linter o).lintTree 0 source tree = .ok found :=
    Linter.exists_lintTree h.clean h.toFits (document_of hs) (h.inOrder s hs) (indents_linter o)
  obtain ⟨ms, hms, -⟩ := exists_of_lintTree_linter h.clean hs hfound
  obtain ⟨widths, fixed, s', rfl, hp⟩ := pass_of_mismatches h.toWellFormed hcut hl hms level
  exact ⟨s, widths, hs, hcut, hl, fun k => lintTree_linter h.clean hs hms, fixed, s', hp⟩

/-- A round that can be relied on and finds something to fix takes a step to one that can. -/
theorem Readable.exists_step {k : Nat} {r : Linter.Round} (h : Readable r.source r.tree)
    (hfound : (linter o).lintTree k r.source r.tree = .ok r.found)
    (hwanted : Linter.wantedEdits level r.found ≠ []) :
    ∃ r' line, (linter o).next? level k r = some r' ∧ Readable r'.source r'.tree ∧
      r.Step level line r' := by
  obtain ⟨s, widths, hs, hcut, hl, hlook, fixed, s', hp⟩ := h.exists_look o level
  have heq := Except.ok.inj ((hlook k).symm.trans hfound)
  rw [heq] at hp
  have hr' := hp.readable h hs hcut hl
  obtain ⟨s₂, widths', hs₂, -, -, hlook', fixed', s₂', hp'⟩ := hr'.exists_look o level
  obtain rfl := Except.ok.inj (hp.ofTree_eq.symm.trans hs₂)
  obtain ⟨line, hline⟩ := Linter.Round.exists_firstLine? hwanted
  obtain ⟨t, ht, rfl⟩ := exists_isFirst hl hcut heq hline
  have htsize := (ht.spec h hcut hl).1
  refine ⟨⟨fixed, r.tree.moved _, _⟩, (s.token t).startLine,
    Linter.next?_eq_some_iff.2 ⟨hwanted, hp.applied, rfl, hlook' (k + 1)⟩, hr', hline, ?_, ?_,
    by rw [count_of, count_of, hp.terminators_eq], hp.sameAbove h hcut hl ht,
    hp.above_ne h hcut hl ht, fun line' hline' => ?_⟩
  · rw [← hcut.lineOf_start htsize]
    exact one_le_lineOf _ _
  · rw [← hcut.lineOf_start htsize]
    exact lineOf_le_count _ _
  · obtain ⟨t', ht', rfl⟩ := exists_isFirst hp.lined hp.cut rfl hline'
    obtain ⟨m, hm, rfl⟩ := ht'.mem
    exact hp.startLine_lt h hs hcut hl ht hp'.resolved hm

/-- Every round of a text that can be relied on can be relied on. -/
theorem Readable.of_rounds (h : Readable source tree) {k : Nat} {r : Linter.Round}
    (hr : (linter o).rounds level source tree k = some r) :
    Readable r.source r.tree ∧ (linter o).lintTree k r.source r.tree = .ok r.found := by
  induction k generalizing r with
  | zero =>
    obtain ⟨hsource, htree, hlook⟩ := Linter.look?_eq_some_iff.1 hr
    rw [hsource, htree]
    exact ⟨h, hlook⟩
  | succ k ih =>
    obtain ⟨q, hq, hnext⟩ := Linter.rounds_succ_eq_some_iff.1 hr
    obtain ⟨hread, hlook⟩ := ih hq
    obtain ⟨hwanted, -, -, hlook'⟩ := Linter.next?_eq_some_iff.1 hnext
    obtain ⟨r', -, hnext', hread', -⟩ := hread.exists_step hlook hwanted
    obtain rfl := Option.some.inj (hnext'.symm.trans hnext)
    exact ⟨hread', hlook'⟩

theorem Readable.exists_next (h : Readable source tree) {k : Nat} {r : Linter.Round}
    (hr : (linter o).rounds level source tree k = some r)
    (hwanted : Linter.wantedEdits level r.found ≠ []) :
    ∃ r', (linter o).next? level k r = some r' := by
  obtain ⟨hread, hlook⟩ := h.of_rounds hr
  obtain ⟨r', -, hnext, -⟩ := hread.exists_step hlook hwanted
  exact ⟨r', hnext⟩

theorem Readable.steps (h : Readable source tree) : (linter o).Steps level source tree := by
  intro k r r' hr hnext
  obtain ⟨hread, hlook⟩ := h.of_rounds hr
  obtain ⟨r₂, line, hnext', -, hstep⟩ :=
    hread.exists_step hlook (Linter.next?_eq_some_iff.1 hnext).1
  obtain rfl := Option.some.inj (hnext'.symm.trans hnext)
  exact ⟨line, hstep⟩

theorem Readable.exists_zero (h : Readable source tree) :
    ∃ r, (linter o).rounds level source tree 0 = some r := by
  obtain ⟨s, widths, -, -, -, hlook, -⟩ := h.exists_look o level
  exact ⟨⟨source, tree, _⟩, Linter.look?_eq_some_iff.2 ⟨rfl, rfl, hlook 0⟩⟩

/-- Where every text is read as the tree that is moved along with it, fixing starts with the first
round. -/
theorem Readable.exists_lint (h : Readable source tree) {parse : Parser}
    (hparse : ∀ k r, (linter o).rounds level source tree k = some r → parse k r.source = some r.tree) :
    ∃ r, (linter o).rounds level source tree 0 = some r ∧ r.source = source ∧
      (linter o).lint parse 0 source = .ok r.found := by
  obtain ⟨r, hr⟩ : ∃ r, (linter o).rounds level source tree 0 = some r := h.exists_zero
  obtain ⟨hsource, htree, hlook⟩ := Linter.look?_eq_some_iff.1 hr
  refine ⟨r, hr, hsource, ?_⟩
  have hread := hparse 0 r hr
  rw [hsource, htree] at hread
  rw [Linter.lint, hread]
  exact hlook

/-- Fixing goes down from line to line and never back, also where lists look at columns.  Every text
that it comes to can be checked, with the tree moved along with the text.  The first line that a round
may fix lies below that of the round before, and the lines above that one are the same in both.  So all
texts are different, and there are no more passes than lines, whatever the limit.  A text has been
changed if an edit has been made. -/
theorem exists_rounds (h : Readable source tree) (o : IndentOptions) (level : Applicability) :
    let rounds := (linter o).rounds level source tree
    (∃ r, rounds 0 = some r) ∧
      (∀ k r, rounds k = some r → Linter.wantedEdits level r.found ≠ [] →
        ∃ r', rounds (k + 1) = some r') ∧
      (∀ k r r' line line', rounds k = some r → rounds (k + 1) = some r' →
        r.firstLine? level = some line → r'.firstLine? level = some line' →
          line < line' ∧ SameAbove line r.source r'.source) ∧
      (∀ j k r r', j < k → rounds j = some r → rounds k = some r' → r'.source ≠ r.source) ∧
      (∀ k r, rounds k = some r → k ≤ (Lines.of source).count) ∧
      ∀ parse : Parser, (∀ k r, rounds k = some r → parse k r.source = some r.tree) →
        ∃ found, (linter o).lint parse 0 source = .ok found ∧
          (linter o).fix parse level source =
            (linter o).fixFrom parse level Linter.passLimit ⟨source, 0, 0, found⟩ ∧
          ∀ limit, ∃ st, (linter o).fixFrom parse level limit ⟨source, 0, 0, found⟩ = .ok st ∧
            (∃ r, rounds st.passes = some r ∧ st.source = r.source ∧ st.remaining = r.found) ∧
            st.passes ≤ limit ∧ st.passes ≤ (Lines.of source).count ∧
            (st.passes < limit ∨ (Lines.of source).count ≤ limit →
              Linter.wantedEdits level st.remaining = []) ∧
            (st.changed = true ↔ st.source ≠ source) := by
  intro rounds
  have hsteps : (linter o).Steps level source tree := h.steps
  refine ⟨h.exists_zero, fun k r hr hwanted => ?_, fun k r r' line line' hr hr' hline hline' => ?_,
    fun j k r r' hjk hr hr' => Linter.source_ne_of_rounds hsteps hjk hr hr',
    fun k r hr => Linter.le_count_of_rounds hsteps hr, fun parse hparse => ?_⟩
  · obtain ⟨r', hnext⟩ := h.exists_next hr hwanted
    exact ⟨r', Linter.rounds_succ_eq_some_iff.2 ⟨r, hr, hnext⟩⟩
  · obtain ⟨q, hq, hnext⟩ := Linter.rounds_succ_eq_some_iff.1 hr'
    obtain rfl := Option.some.inj (hr.symm.trans hq)
    obtain ⟨line₂, hstep⟩ := hsteps k r r' hr hnext
    obtain rfl := Option.some.inj (hline.symm.trans hstep.firstLine?_eq)
    exact ⟨hstep.lt line' hline', hstep.sameAbove⟩
  · obtain ⟨r₀, hr₀, hsource, hlint⟩ := h.exists_lint hparse
    refine ⟨r₀.found, hlint, by rw [Linter.fix, hlint]; rfl, fun limit => ?_⟩
    obtain ⟨st, r, hfix, hr, hst, hremaining, hle, hdone, hcases⟩ := Linter.exists_fixFrom hparse
      (fun k r hr hwanted => h.exists_next hr hwanted) hr₀ limit 0
    have hcount := Linter.le_count_of_rounds hsteps hr
    rw [hsource] at hfix
    refine ⟨st, hfix, ⟨r, hr, hst, hremaining⟩, by omega, hcount, fun hlimit => ?_, ?_⟩
    · by_contra hwanted
      obtain ⟨r', hnext⟩ := h.exists_next hr (hremaining ▸ hwanted)
      have hcount' := Linter.le_count_of_rounds hsteps
        (Linter.rounds_succ_eq_some_iff.2 ⟨r, hr, hnext⟩)
      refine hwanted (hdone ?_)
      omega
    · rw [FixState.changed, decide_eq_true_iff]
      rcases hcases with ⟨hpasses, hfixed⟩ | ⟨hpasses, hfixed⟩
      · rw [hpasses] at hr
        obtain rfl := Option.some.inj (hr₀.symm.trans hr)
        simp [hfixed, hst, hsource]
      · have hne := Linter.source_ne_of_rounds hsteps hpasses hr₀ hr
        rw [hsource] at hne
        exact ⟨fun _ => hst ▸ hne, fun _ => hfixed⟩

theorem wellFormed_listTree : listTree.WellFormed listText where
  toFits := fits_listTree
  clear := .of_flat (by decide) (by decide) (by decide) (by decide)

/-- A tree without fields can be relied on if its elements have names and no node ends with an opening
parenthesis. -/
theorem Readable.of_unnamed (h : tree.WellFormed source) (hclean : tree.tainted = false)
    (hmarks : MarksInside tree) (hs : TokenStream.ofTree source tree = .ok s)
    (hfields : ∀ c ∈ tree.preorder, ∀ d ∈ c.children, d.node.label.field = none)
    (hends : ∀ c ∈ tree.preorder, ∀ t ∈ s.lastOf? c, s.isPunctuator t ['('] = false)
    (hnamed : ∀ c ∈ tree.preorder, ∀ e ∈ (Sequence.arrayElements c).filterMap id, e.named = true) :
    Readable source tree where
  toWellFormed := h
  clean := hclean
  marks := hmarks
  inOrder := fun _ _ => inOrder_of_unnamed hfields
  ended := by
    intro d hd c hc
    obtain rfl : s = d := Except.ok.inj (hs.symm.trans hd)
    have hnone : ∀ field, c.fieldChild? field = none := fun field => by
      refine List.find?_eq_none.2 fun d hd => ?_
      rw [hfields c hc d hd]
      simp
    refine ⟨fun _ t ht => hends c hc t ht, fun _ => hnamed c hc, fun d hd => ?_⟩
    rw [hnone, hnone] at hd
    rcases hd with hd | hd <;> cases hd

theorem readable_listTree : Readable listText listTree :=
  .of_unnamed wellFormed_listTree rfl (by unfold MarksInside Operation.IsMark; decide) ofTree_listTree
    (by decide) (by with_unfolding_all decide) (by with_unfolding_all decide)

/-- A list is put into the column of its first element, and then nothing is left to do. -/
theorem exists_rounds_listTree :
    let l := linter { IndentOptions.standard with array := .first }
    let parse : Parser := fun k _ => (l.rounds .safe listText listTree k).map Linter.Round.tree
    ∃ st, l.fix parse .safe listText = .ok st ∧ st.passes ≤ 2 ∧
      Linter.wantedEdits .safe st.remaining = [] ∧ (st.changed = true ↔ st.source ≠ listText) := by
  intro l parse
  have hcount : (Lines.of listText).count = 2 := by decide
  obtain ⟨-, -, -, -, -, hfix⟩ := exists_rounds readable_listTree
    { IndentOptions.standard with array := .first } .safe
  obtain ⟨found, -, hfixFrom, hlimit⟩ := hfix parse fun k r hr => by
    rw [show parse k r.source = some r.tree from congrArg (Option.map Linter.Round.tree) hr]
  obtain ⟨st, hst, -, -, hpasses, hdone, hchanged⟩ := hlimit Linter.passLimit
  exact ⟨st, hfixFrom.trans hst, hcount ▸ hpasses, hdone (.inr (by rw [hcount]; decide)), hchanged⟩

end IndentRule

end Indentation
