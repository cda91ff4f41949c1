import Indentation.Proofs.Lint.Rounds
import Indentation.Proofs.Token.Queries
import Mathlib.Algebra.GroupWithZero.Nat
import Mathlib.Data.List.Permutation

/-!
# Reports are exact

A token that leads its line is reported just if it is not where it should be, and a comment just if it
stands as none of the lines beside it should.  Each report is about a line of its own, so its edit
touches no other, none is dropped when a text is fixed, and each puts its line where it should be.
-/

namespace Indentation

open Text Lines

/-- What it takes not to fit a width. -/
theorem Margin.fits_eq_false_iff {m : Margin} {c : IndentChar} {width : Nat} :
    m.fits c width = false ↔ m.isMixed = false ∧ ¬(m.good c = width ∧ m.bad c = 0) := by
  simp [fits]

/-! ## The lines beside a comment -/

namespace TokenStream

variable {s : TokenStream}

/-- A token is the first one that starts or ends on a line. -/
structure IsFirstOn (s : TokenStream) (line u : Nat) : Prop where
  lt_size : u < s.size
  touches : (s.token u).touches line = true
  first : ∀ j < u, (s.token j).touches line = false

theorem leaderOf_eq_iff (hl : s.Lined) {n u : Nat} (hn : n < s.size) :
    s.leaderOf n = u ↔ s.IsFirstOn (s.token n).startLine u := by
  obtain ⟨k, -, hk⟩ := hl.exists_leader hn
  rw [leaderOf, hk, Option.getD_some]
  obtain ⟨hsize, htouch, hfirst⟩ := (hl.leader?_eq_some_iff hn).1 hk
  constructor
  · rintro rfl
    exact ⟨hsize, htouch, hfirst⟩
  · intro hu
    exact Option.some.inj (hk.symm.trans ((hl.leader?_eq_some_iff hn).2 ⟨hu.lt_size, hu.touches, hu.first⟩))

/-- The tokens whose widths a comment may have: its own, that of the line on which the closest token
before it starts, and that of the line on which the closest token after it starts. -/
inductive Beside (s : TokenStream) (t : Nat) : Nat → Prop where
  | own : Beside s t t
  | before {n u : Nat} : s.ClosestBefore t n → s.IsFirstOn (s.token n).startLine u → Beside s t u
  | after {n u : Nat} : s.ClosestAfter t n → s.IsFirstOn (s.token n).startLine u → Beside s t u

end TokenStream

namespace Mismatch

open TokenStream

variable {s : TokenStream} {c : IndentChar} {g : Graph} {widths : Array Nat}

theorem lineBefore?_eq_some_iff (hl : s.Lined) {t u : Nat} (ht : t < s.size) :
    lineBefore? s t = some u ↔ ∃ n, s.ClosestBefore t n ∧ s.IsFirstOn (s.token n).startLine u := by
  simp only [lineBefore?, Option.map_eq_some_iff, prevCode?_eq_some_iff]
  refine exists_congr fun n => and_congr_right fun hn => leaderOf_eq_iff hl ?_
  have := hn.lt
  omega

theorem lineAfter?_eq_some_iff (hl : s.Lined) {t u : Nat} (hcomment : s.isComment t = true) :
    lineAfter? s t = some u ↔ ∃ n, s.ClosestAfter t n ∧ s.IsFirstOn (s.token n).startLine u := by
  -- The search starts behind the closest code before the comment, or where the file starts.
  obtain ⟨start, hstart, hcomments, hline⟩ : ∃ start ≤ t, (∀ k, start ≤ k → k < t →
      s.isComment k = true) ∧ lineAfter? s t = (s.nextCodeFrom? start).map s.leaderOf := by
    rw [lineAfter?]
    cases hprev : s.prevCode? t with
    | some previous =>
      obtain ⟨hlt, -, hbetween⟩ := prevCode?_eq_some_iff.1 hprev
      exact ⟨previous + 1, hlt, hbetween, rfl⟩
    | none => exact ⟨0, Nat.zero_le t, fun k _ => isComment_of_prevCode? hprev, rfl⟩
  have hnext (n : Nat) : s.nextCodeFrom? start = some n ↔ s.ClosestAfter t n :=
    nextCodeFrom?_iff_closestAfter (by omega) fun k hk hkt => by
      rcases Nat.lt_or_eq_of_le hkt with hkt | rfl
      · exact hcomments k hk hkt
      · exact hcomment
  rw [hline, Option.map_eq_some_iff]
  exact exists_congr fun n => (and_congr_left fun _ => hnext n).trans
    (and_congr_right fun hn => leaderOf_eq_iff hl hn.lt_size)

/-- A comment strays if it stands as no line beside it should. -/
theorem isStray_iff (hl : s.Lined) {t : Nat} (ht : t < s.size) (hcomment : s.isComment t = true) :
    isStray s c g widths t = true ↔ s.hasBlankMargin t = true ∧ g.isExempt t = false ∧
      ∀ u, s.Beside t u → fits s c widths t u = false := by
  simp only [isStray, Bool.and_eq_true, Bool.not_eq_true', Option.any_eq_false, and_assoc]
  refine and_congr_right fun _ => and_congr_right fun _ =>
    ⟨?_, fun h => ⟨fun u hu => ?_, fun u hu => ?_, h t .own⟩⟩
  · rintro ⟨hbefore, hafter, hown⟩ u hu
    cases hu with
    | own => exact hown
    | before hn hu => exact hbefore u ((lineBefore?_eq_some_iff hl ht).2 ⟨_, hn, hu⟩)
    | after hn hu => exact hafter u ((lineAfter?_eq_some_iff hl hcomment).2 ⟨_, hn, hu⟩)
  · obtain ⟨n, hn, hu⟩ := (lineBefore?_eq_some_iff hl ht).1 hu
    exact h u (.before hn hu)
  · obtain ⟨n, hn, hu⟩ := (lineAfter?_eq_some_iff hl hcomment).1 hu
    exact h u (.after hn hu)

/-- What is reported of a text, whatever the graph and the widths: one token of a line at most, in the
order of the text, and those that are not where they should be. -/
structure Exact (s : TokenStream) (c : IndentChar) (g : Graph) (widths : Array Nat)
    (ms : List Mismatch) : Prop where
  tokens_lt : ms.Pairwise fun m m' => m.token < m'.token
  lines_lt : ms.Pairwise fun m m' => (s.token m.token).startLine < (s.token m'.token).startLine
  eq_of : ∀ m ∈ ms, m = of s widths m.token
  not_exempt : ∀ m ∈ ms, g.isExempt m.token = false
  code_iff : ∀ t < s.size, s.isComment t = false → ((∃ m ∈ ms, m.token = t) ↔
    s.leads t = true ∧ g.isExempt t = false ∧ (s.marginOf t).isMixed = false ∧
      ¬((s.marginOf t).good c = widths.getD t 0 ∧ (s.marginOf t).bad c = 0))
  comment_iff : ∀ t < s.size, s.isComment t = true → ((∃ m ∈ ms, m.token = t) ↔
    s.hasBlankMargin t = true ∧ g.isExempt t = false ∧ (s.marginOf t).isMixed = false ∧
      ∀ u, s.Beside t u →
        ¬((s.marginOf t).good c = widths.getD u 0 ∧ (s.marginOf t).bad c = 0))

/-- A token is reported if the check that is meant for it says so. -/
theorem exists_mem_all_iff {t : Nat} (ht : t < s.size) :
    (∃ m ∈ all s c g widths, m.token = t) ↔
      s.isComment t = false ∧ isMisplaced s c g widths t = true ∨
        s.isComment t = true ∧ isStray s c g widths t = true := by
  constructor
  · rintro ⟨m, hm, rfl⟩
    obtain ⟨u, -, rfl, hbad⟩ := mem_all.1 hm
    exact hbad
  · intro hbad
    exact ⟨of s widths t, mem_all.2 ⟨t, ht, rfl, hbad⟩, rfl⟩

theorem exact_all {source : Text} {tree : Node} (h : tree.WellFormed source)
    (hcut : s.CutFrom source tree.pieces) (hl : s.Lined) (c : IndentChar) (g : Graph)
    (widths : Array Nat) : Exact s c g widths (all s c g widths) where
  tokens_lt := pairwise_all
  lines_lt := by
    refine pairwise_all.imp_of_mem fun {m m'} hm hm' hlt => ?_
    obtain ⟨t, ht, rfl, -⟩ := exists_of_mem_all h hcut hl hm
    obtain ⟨u, hu, rfl, hlead, -⟩ := exists_of_mem_all h hcut hl hm'
    exact Nat.lt_of_le_of_lt (hl.startLine_le t ht) ((hl.leads_iff hu).1 hlead t hlt)
  eq_of m hm := by
    obtain ⟨t, -, rfl, -⟩ := mem_all.1 hm
    rfl
  not_exempt m hm := by
    obtain ⟨t, -, rfl, -, hexempt, -⟩ := exists_of_mem_all h hcut hl hm
    exact hexempt
  code_iff t ht hcode := by
    rw [exists_mem_all_iff ht]
    simp only [hcode, true_and, Bool.false_eq_true, false_and, or_false, isMisplaced, fits,
      Bool.and_eq_true, Bool.not_eq_true', Margin.fits_eq_false_iff, and_assoc]
  comment_iff t ht hcomment := by
    rw [exists_mem_all_iff ht]
    simp only [hcomment, Bool.true_eq_false, false_and, true_and, false_or, isStray_iff hl ht hcomment,
      fits, Margin.fits_eq_false_iff]
    refine and_congr_right fun _ => and_congr_right fun _ => ⟨fun hall => ?_, fun hall u hu => ?_⟩
    · exact ⟨(hall t .own).1, fun u hu => (hall u hu).2⟩
    · exact ⟨hall.1, hall.2 u hu⟩

end Mismatch

namespace IndentRule

variable {o : IndentOptions} {source : Text} {tree : Node} {s : TokenStream}

/-- What the fixes of some mismatches do: their edits are about parts of the text that do not even
touch, so all of them are selected and can be carried out, each replaces a margin by another one, and
every line has the indentation that was asked for. -/
structure Mends (o : IndentOptions) (source : Text) (tree : Node) (s : TokenStream)
    (kept : List Mismatch) : Prop where
  apart : (kept.map (edit o s)).Pairwise fun e e' => e.range.stop < e'.range.start
  select_perm : (Edit.select (kept.map (edit o s))).Perm (kept.map (edit o s))
  changes : ∀ m ∈ kept, ∃ old, Text.slice source (edit o s m).range = .ok old ∧
    (edit o s m).content.getD [] ≠ old
  fits : ∃ fixed s', Edit.applyAll source (Edit.select (kept.map (edit o s))) = .ok fixed ∧
    TokenStream.ofTree fixed (tree.moved (Edit.select (kept.map (edit o s)))) = .ok s' ∧
    ∀ m ∈ kept, (s'.marginOf m.token).fits o.indentChar m.expected = true

/-- What a margin edit replaces is the margin. -/
theorem slice_marginRange (hcut : s.CutFrom source tree.pieces) {t : Nat} (ht : t < s.size) :
    Text.slice source (s.token t).marginRange = .ok (s.token t).margin := by
  obtain ⟨u, b, hsource, -, -, hstart, hstop⟩ := hcut.exists_margin ht
  exact slice_eq_ok_iff.2 ⟨u, (s.token t).text ++ b, hsource, hstart, hstop⟩

theorem mends (h : tree.WellFormed source) (hcut : s.CutFrom source tree.pieces) (hl : s.Lined)
    (o : IndentOptions) {g : Graph} {widths : Array Nat} {kept : List Mismatch}
    (hkept : kept.Sublist (Mismatch.all s o.indentChar g widths)) : Mends o source tree s kept := by
  have hedits := pairwise_edits h hcut hl hkept
  obtain ⟨hperm, hapart⟩ := Edit.select_of_apart (hedits.imp .inl)
  have hmem : ∀ e ∈ Edit.select (kept.map (edit o s)),
      ∃ m ∈ Mismatch.all s o.indentChar g widths, e = edit o s m := fun e he => by
    obtain ⟨m, hm, rfl⟩ := List.mem_map.1 (hperm.mem_iff.1 he)
    exact ⟨m, hkept.subset hm, rfl⟩
  have hre := reindents_of_mem h hcut hl hmem
  obtain ⟨fixed, happly, -⟩ := TokenStream.exists_applyAll h hcut hl (Edit.Apart.descending hapart) hre
  obtain ⟨s', hs', hcut', -, hsize, hmoves⟩ :=
    TokenStream.exists_moved h hcut hl (Edit.Apart.descending hapart) hre happly
  refine ⟨hedits, hperm, fun m hm => ?_, fixed, s', happly, hs', fun m hm => ?_⟩
  · obtain ⟨t, ht, rfl, -, -, hfits⟩ := Mismatch.exists_of_mem_all h hcut hl (hkept.subset hm)
    refine ⟨(s.token t).margin, ?_, fun heq => ?_⟩
    · rw [edit, Edit.range_replacement]
      exact slice_marginRange hcut ht
    · -- the margin that is asked for would have fitted
      rw [edit, Edit.getD_content_replacement] at heq
      rw [Mismatch.fits, TokenStream.marginOf, ← heq, Mismatch.of, Margin.measure_fill,
        beq_self_eq_true] at hfits
      cases hfits
  · obtain ⟨t, ht, rfl, -⟩ := Mismatch.exists_of_mem_all h hcut hl (hkept.subset hm)
    have hmargin := TokenStream.margin_of_edit h hcut hl (Edit.Apart.descending hapart) hre happly hcut'
      hsize hmoves hapart ht (hperm.mem_iff.2 (List.mem_map_of_mem hm)) (Edit.range_replacement _ _)
    change (s'.marginOf t).fits _ _ = true
    rw [TokenStream.marginOf, hmargin, edit, Edit.getD_content_replacement, Margin.measure_fill,
      beq_self_eq_true]

end IndentRule

namespace Linter

variable {l : Linter} {parse : Parser} {level : Applicability} {source : Text} {tree : Node}
  {found : List Finding} {round : Nat}

/-- How many findings have a fix. -/
def fixable (found : List Finding) : Nat := (found.filter Finding.isFixable).length

theorem wantedEdits_of_no_fix (level : Applicability) (h : ∀ f ∈ found, f.violation.fix = none) :
    wantedEdits level found = [] ∧ fixable found = 0 := by
  constructor
  · have hnil : found.filterMap (fun f => f.violation.fix) = [] := List.filterMap_eq_nil_iff.2 h
    rw [wantedEdits, hnil, List.flatMap_nil]
  · rw [fixable, List.length_eq_zero_iff, List.filter_eq_nil_iff]
    intro f hf
    rw [Finding.isFixable, h f hf]
    exact Bool.false_ne_true

/-- A linter with one rule at most, which is not the one that indents with its fixes kept, fixes
nothing. -/
theorem fix_eq_none_of_ne_linter (hclean : tree.tainted = false) {d : Document}
    (hdoc : Document.of source tree = .ok d) (hl : l.Indents) (hone : l.rules.length ≤ 1)
    (hne : ∀ o, l ≠ IndentRule.linter o) (hfound : l.lintTree round source tree = .ok found) :
    ∀ f ∈ found, f.violation.fix = none := by
  intro f hf
  obtain ⟨active, hactive, violations, -, v, -, rfl⟩ :=
    exists_eq_of_mem_lintTree hclean hdoc hfound hf
  cases hkeeps : active.keepsFixes with
  | false => rfl
  | true =>
    obtain ⟨o, ho⟩ := hl active hactive
    refine absurd ?_ (hne o)
    obtain ⟨rules⟩ := l
    obtain ⟨rule, keepsFixes⟩ := active
    obtain ⟨a, rfl⟩ : ∃ a, rules = [a] := by
      have hpos := List.length_pos_of_mem hactive
      exact List.length_eq_one_iff.1 (Nat.le_antisymm hone hpos)
    obtain rfl := List.mem_singleton.1 hactive
    simp only at ho hkeeps
    rw [ho, hkeeps, IndentRule.linter]

/-- Each fix of a linter that indents has one edit, and none of them is dropped. -/
theorem select_perm_wantedEdits_linter {o : IndentOptions} {s : TokenStream}
    (h : tree.WellFormed source) (hclean : tree.tainted = false)
    (hs : TokenStream.ofTree source tree = .ok s) (hcut : s.CutFrom source tree.pieces) (hlined : s.Lined)
    (hfound : (IndentRule.linter o).lintTree round source tree = .ok found) (level : Applicability) :
    (Edit.select (wantedEdits level found)).Perm (wantedEdits level found) ∧
      (wantedEdits level found).length = fixable found := by
  obtain ⟨ms, hms, rfl⟩ := IndentRule.exists_of_lintTree_linter hclean hs hfound
  obtain ⟨g, widths, rfl⟩ := IndentRule.exists_all_of_mismatches hms
  obtain ⟨-, hselect⟩ := IndentRule.select_wantedEdits h hcut hlined level
  have hwanted := IndentRule.wantedEdits_perm (o := o) (s := s) level
    (Mismatch.all s o.indentChar g widths)
  refine ⟨hselect.trans hwanted.symm, ?_⟩
  have hall : ∀ f ∈ IndentRule.findings o s (Mismatch.all s o.indentChar g widths),
      f.isFixable = true := fun f hf => by
    obtain ⟨m, -, rfl⟩ := List.mem_map.1 (List.mem_mergeSort.1 hf)
    rfl
  rw [fixable, List.filter_eq_self.2 hall, hwanted.length_eq, IndentRule.findings,
    List.length_mergeSort, List.length_map, List.length_map]

/-- Each fix has one edit, and none of them is dropped. -/
theorem select_perm_wantedEdits (h : tree.WellFormed source) (hl : l.Indents)
    (hone : l.rules.length ≤ 1) (hfound : l.lintTree round source tree = .ok found)
    (level : Applicability) :
    (Edit.select (wantedEdits level found)).Perm (wantedEdits level found) ∧
      (wantedEdits level found).length = fixable found := by
  have hclean : tree.tainted = false := by
    by_contra htainted
    rw [Bool.not_eq_false] at htainted
    rw [lintTree, if_pos htainted] at hfound
    cases hfound
  obtain ⟨s, hs, hcut, hlined⟩ := h.exists_ofTree
  by_cases hkeeps : ∃ o, l = IndentRule.linter o
  · obtain ⟨o, rfl⟩ := hkeeps
    exact select_perm_wantedEdits_linter h hclean hs hcut hlined hfound level
  · have hnone := fix_eq_none_of_ne_linter hclean (IndentRule.document_of hs) hl hone
      (not_exists.1 hkeeps) hfound
    obtain ⟨hwanted, hcount⟩ := wantedEdits_of_no_fix level hnone
    rw [hwanted, hcount, Edit.select, List.mergeSort_nil, List.foldl_nil]
    exact ⟨.refl _, rfl⟩

/-- Whatever text is read, the tree is one of this text. -/
def Reads (parse : Parser) : Prop := ∀ k t tree, parse k t = some tree → tree.WellFormed t

/-- A run of passes, with how many findings had a fix before each of them. -/
inductive Run (l : Linter) (parse : Parser) (level : Applicability) :
    FixState → List Nat → FixState → Prop where
  | done (st : FixState) : Run l parse level st [] st
  | pass {st st' last : FixState} {counts : List Nat} :
      l.pass parse st (Edit.select (wantedEdits level st.remaining)) = .ok st' →
      Run l parse level st' counts last →
      Run l parse level st (fixable st.remaining :: counts) last

section

variable (hreads : Reads parse) (hl : l.Indents) (hone : l.rules.length ≤ 1)
include hreads hl hone

/-- What is found in a text that is read has as many edits as fixes, and all of them are selected. -/
theorem select_perm_of_lint (level : Applicability) {k : Nat}
    (hlint : l.lint parse k source = .ok found) :
    (Edit.select (wantedEdits level found)).Perm (wantedEdits level found) ∧
      (wantedEdits level found).length = fixable found := by
  rw [lint] at hlint
  split at hlint
  · cases hlint
  · next tree htree => exact select_perm_wantedEdits (hreads k source tree htree) hl hone hlint level

/-- A pass counts the findings that have a fix, and leaves a text with what is found in it. -/
theorem fixed_of_pass {st st' : FixState} {k : Nat}
    (hst : l.lint parse k st.source = .ok st.remaining)
    (hpass : l.pass parse st (Edit.select (wantedEdits level st.remaining)) = .ok st') :
    st'.fixed = st.fixed + fixable st.remaining ∧ st'.passes = st.passes + 1 ∧
      l.lint parse st'.passes st'.source = .ok st'.remaining := by
  obtain ⟨hperm, hcount⟩ := select_perm_of_lint hreads hl hone level hst
  rw [pass] at hpass
  cases happly : Edit.applyAll st.source (Edit.select (wantedEdits level st.remaining)) with
  | error e => simp [happly, LintError.orFault, bind, Except.bind] at hpass
  | ok fixed =>
    cases hlint : l.lint parse (st.passes + 1) fixed with
    | error e => simp [happly, hlint, LintError.orFault, bind, Except.bind] at hpass
    | ok remaining =>
      simp only [happly, hlint, LintError.orFault, bind, Except.bind, pure, Except.pure,
        Except.ok.injEq] at hpass
      subst hpass
      refine ⟨?_, rfl, hlint⟩
      rw [← hcount, ← hperm.length_eq]

/-- However many passes there are, each of them has counted the findings that had a fix. -/
theorem exists_run {left k : Nat} {st last : FixState}
    (hst : l.lint parse k st.source = .ok st.remaining)
    (hfix : l.fixFrom parse level left st = .ok last) :
    ∃ counts, Run l parse level st counts last ∧ last.passes = st.passes + counts.length ∧
      last.fixed = st.fixed + counts.sum := by
  induction left generalizing st k with
  | zero =>
    obtain rfl : st = last := Except.ok.inj hfix
    exact ⟨[], .done st, rfl, rfl⟩
  | succ left ih =>
    by_cases hwanted : wantedEdits level st.remaining = []
    · rw [fixFrom, hwanted] at hfix
      obtain rfl : st = last := Except.ok.inj hfix
      exact ⟨[], .done st, rfl, rfl⟩
    · cases hpass : l.pass parse st (Edit.select (wantedEdits level st.remaining)) with
      | error e =>
        rw [fixFrom] at hfix
        split at hfix
        · next hnil => exact absurd hnil hwanted
        · rw [hpass] at hfix
          cases hfix
      | ok st' =>
        rw [fixFrom_of_pass hwanted hpass] at hfix
        obtain ⟨hfixed, hpasses, hlint⟩ := fixed_of_pass hreads hl hone hst hpass
        obtain ⟨counts, hrun, hlength, hsum⟩ := ih hlint hfix
        refine ⟨_, .pass hpass hrun, ?_, ?_⟩
        · rw [hlength, hpasses, List.length_cons]
          omega
        · rw [hsum, hfixed, List.sum_cons, Nat.add_assoc]

end

end Linter

namespace IndentRule

variable {source : Text} {tree : Node}

/-- Reports are exact, whatever the graph and the widths, and their edits, or some of them, mend the
lines that they are about.  So a linter that runs the rule drops no edit, and a text is fixed by passes
each of which counts the findings that had a fix. -/
theorem reports_exact (h : tree.WellFormed source) :
    ∃ s, TokenStream.ofTree source tree = .ok s ∧
      (∀ (o : IndentOptions) (g : Graph) (widths : Array Nat),
        let ms := Mismatch.all s o.indentChar g widths
        Mismatch.Exact s o.indentChar g widths ms ∧
          ∀ kept, kept.Sublist ms → Mends o source tree s kept) ∧
      ∀ (l : Linter) (level : Applicability), l.Indents → l.rules.length ≤ 1 →
        (∀ round found, l.lintTree round source tree = .ok found →
          (Edit.select (Linter.wantedEdits level found)).Perm (Linter.wantedEdits level found) ∧
            (Linter.wantedEdits level found).length = Linter.fixable found) ∧
        ∀ parse text last, Linter.Reads parse → l.fix parse level text = .ok last →
          ∃ found counts, l.lint parse 0 text = .ok found ∧
            l.Run parse level ⟨text, 0, 0, found⟩ counts last ∧ last.passes = counts.length ∧
            last.fixed = counts.sum := by
  obtain ⟨s, hs, hcut, hl⟩ := h.exists_ofTree
  refine ⟨s, hs, fun o g widths => ⟨Mismatch.exact_all h hcut hl _ g widths,
    fun kept hkept => mends h hcut hl o hkept⟩, fun l level hindents hone =>
      ⟨fun round found hfound => Linter.select_perm_wantedEdits h hindents hone hfound level,
        fun parse text last hreads hfix => ?_⟩⟩
  rw [Linter.fix] at hfix
  cases hlint : l.lint parse 0 text with
  | error e => simp [hlint, bind, Except.bind] at hfix
  | ok found =>
    simp only [hlint, bind, Except.bind] at hfix
    have hlint' : l.lint parse 0 (FixState.mk text 0 0 found).source = .ok found := hlint
    obtain ⟨counts, hrun, hpasses, hfixed⟩ := Linter.exists_run hreads hindents hone hlint' hfix
    exact ⟨found, counts, rfl, hrun, hpasses.trans (Nat.zero_add _), hfixed.trans (Nat.zero_add _)⟩

/-! ## A block with a comment -/

def strayText : Text := ['{', '\n', '/', '*', '*', '/', '\n', ' ', 'a', '}']

def strayTree : Node :=
  plain "program" (bytes 0 10) true
    [plain "statement_block" (bytes 0 10) true
      [plain "\x7b" (bytes 0 1) false [],
       .mk ⟨"comment", bytes 2 4, true, true, false, false, false, none⟩ [],
       plain "expression_statement" (bytes 8 1) true [plain "identifier" (bytes 8 1) true []],
       plain "\x7d" (bytes 9 1) false []]]

def strayStream : TokenStream where
  source := strayText
  tokens := #[
    ⟨.punctuator, bytes 0 1, ['{'], [], 1, 1, 0⟩,
    ⟨.blockComment, bytes 2 4, ['/', '*', '*', '/'], [], 2, 2, 0⟩,
    ⟨.identifier, bytes 8 1, ['a'], [' '], 3, 3, 1⟩,
    ⟨.punctuator, bytes 9 1, ['}'], [' ', 'a'], 3, 3, 2⟩]
  leaders := #[none, some 0, some 1, some 2, none]

theorem ofTree_strayTree : TokenStream.ofTree strayText strayTree = .ok strayStream := by
  rw [TokenStream.ofTree_of_pairwise (by decide)]
  decide +kernel

theorem wellFormed_strayTree : strayTree.WellFormed strayText where
  inside := by decide
  ordered := by decide
  substituted := by unfold Node.Substituted; decide
  cuts := by decide
  clear := .of_flat (by decide) (by decide) (by decide) (by decide)

theorem readable_strayTree : Readable strayText strayTree :=
  .of_unnamed wellFormed_strayTree rfl (by unfold MarksInside Operation.IsMark; decide)
    ofTree_strayTree (by with_unfolding_all decide) (by with_unfolding_all decide) (by with_unfolding_all decide)

/-- The rule asks for four blanks before the name, and the comment may stand as the line before it. -/
theorem mismatches_strayTree :
    mismatches .standard strayTree strayStream = .ok [⟨2, 4, ⟨1, 0⟩⟩] := by
  have hwidths : (graph .standard strayTree strayStream).resolve strayStream .space =
      .ok #[0, 4, 4, 0] := by with_unfolding_all decide
  exact mismatches_eq_singleton hwidths (t := 2) (by with_unfolding_all decide)
    (by with_unfolding_all decide)

/-- With other widths than those of the graph no line is where it should be, the comment among them.
With these the comment stands as the line before it should, and one line is reported. -/
theorem reports_exact_strayTree :
    (∃ s, TokenStream.ofTree strayText strayTree = .ok s ∧
      Mismatch.all s .space (Graph.blank 4) #[1, 2, 4, 0] =
        [⟨0, 1, ⟨0, 0⟩⟩, ⟨1, 2, ⟨0, 0⟩⟩, ⟨2, 4, ⟨1, 0⟩⟩] ∧
      Mends .standard strayText strayTree s [⟨0, 1, ⟨0, 0⟩⟩, ⟨1, 2, ⟨0, 0⟩⟩, ⟨2, 4, ⟨1, 0⟩⟩] ∧
      ∀ u, s.Beside 1 u → #[1, 2, 4, 0].getD u 0 ≠ 0) ∧
    ∃ parse : Parser, Linter.Reads parse ∧ ∃ last found counts,
      (linter .standard).fix parse .safe strayText = .ok last ∧
        (linter .standard).lint parse 0 strayText = .ok found ∧ Linter.fixable found = 1 ∧
        (linter .standard).Run parse .safe ⟨strayText, 0, 0, found⟩ counts last ∧
        last.fixed = counts.sum := by
  obtain ⟨s, hs, hexact, hlinter⟩ := reports_exact wellFormed_strayTree
  obtain rfl : strayStream = s := Except.ok.inj (ofTree_strayTree.symm.trans hs)
  refine ⟨⟨_, ofTree_strayTree, ?_⟩, ?_⟩
  · have hall : Mismatch.all strayStream .space (Graph.blank 4) #[1, 2, 4, 0] =
        [⟨0, 1, ⟨0, 0⟩⟩, ⟨1, 2, ⟨0, 0⟩⟩, ⟨2, 4, ⟨1, 0⟩⟩] := by cbv
    obtain ⟨hreports, hmends⟩ := hexact .standard (Graph.blank 4) #[1, 2, 4, 0]
    refine ⟨hall, hmends _ (hall ▸ .refl _), fun u hu hzero => ?_⟩
    have hcomment := (hreports.comment_iff 1 (by decide) (by decide)).1
      ⟨_, hall ▸ List.mem_cons_of_mem _ List.mem_cons_self, rfl⟩
    exact hcomment.2.2.2 u hu ⟨hzero.symm, by decide⟩
  · -- each text that comes up is read as the tree that is moved along with it
    let parse : Parser := fun k t =>
      ((linter .standard).rounds .safe strayText strayTree k).bind fun r =>
        if t = r.source then some r.tree else none
    have hreads : Linter.Reads parse := by
      intro k t tree htree
      obtain ⟨r, hr, hread⟩ := Option.bind_eq_some_iff.1 htree
      split at hread
      · next ht =>
        obtain rfl := Option.some.inj hread
        exact ht ▸ (readable_strayTree.of_rounds hr).1.toWellFormed
      · cases hread
    obtain ⟨-, -, -, -, -, hfix⟩ := exists_rounds readable_strayTree .standard .safe
    obtain ⟨found, hfound, hfixFrom, hlimit⟩ := hfix parse fun k r hr => by
      change Option.bind _ _ = _
      rw [hr]
      exact if_pos rfl
    obtain ⟨last, hlast, -⟩ := hlimit Linter.passLimit
    obtain ⟨found', counts, hfound', hrun, -, hfixed⟩ := (hlinter (linter .standard) .safe
      (indents_linter _) (Nat.le_refl 1)).2 parse strayText last hreads (hfixFrom.trans hlast)
    obtain rfl : found = found' := Except.ok.inj (hfound.symm.trans hfound')
    refine ⟨parse, hreads, last, found, counts, hfixFrom.trans hlast, hfound, ?_, hrun, hfixed⟩
    have hzero : parse 0 strayText = some strayTree := by
      obtain ⟨r, hr⟩ : ∃ r, (linter .standard).rounds .safe strayText strayTree 0 = some r :=
        readable_strayTree.exists_zero
      obtain ⟨hsource, htree, -⟩ := Linter.look?_eq_some_iff.1 hr
      change Option.bind _ _ = _
      rw [hr]
      exact (if_pos hsource.symm).trans (congrArg some htree)
    have hround : (linter .standard).lintTree 0 strayText strayTree = .ok found := by
      rwa [Linter.lint, hzero] at hfound
    have hlint : (linter .standard).lintTree 0 strayText strayTree = .ok _ :=
      lintTree_linter rfl ofTree_strayTree mismatches_strayTree
    obtain rfl := Except.ok.inj (hlint.symm.trans hround)
    obtain ⟨-, hcount⟩ := (hlinter (linter .standard) .safe (indents_linter _) (Nat.le_refl 1)).1 0 _
      hround
    rw [← hcount, (wantedEdits_perm .safe _).length_eq, List.length_map]
    decide

end IndentRule

end Indentation
