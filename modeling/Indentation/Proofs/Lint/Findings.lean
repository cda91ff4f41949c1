import Indentation.Lint.Fixing
import Indentation.Lint.Indent
import Indentation.Proofs.Lint.Acyclic
import Indentation.Proofs.Text.Edit
import Indentation.Proofs.Token.Margins

/-!
# What a lint finds

Each finding of the indentation rule is about a token that leads its line, and its fix replaces the
margin of that line by indentation.
-/

namespace Indentation

namespace Mismatch

variable {s : TokenStream} {c : IndentChar} {g : Graph} {widths : Array Nat}

theorem mem_all {m : Mismatch} : m ∈ all s c g widths ↔ ∃ t < s.size, m = of s widths t ∧
    (s.isComment t = false ∧ isMisplaced s c g widths t = true ∨
      s.isComment t = true ∧ isStray s c g widths t = true) := by
  simp only [all, List.mem_map, List.mem_mergeSort, List.mem_append, List.mem_filter,
    TokenStream.codeIds, TokenStream.commentIds, TokenStream.ids, List.mem_range,
    Bool.not_eq_true']
  constructor
  · rintro ⟨t, ⟨⟨ht, hcode⟩, hbad⟩ | ⟨⟨ht, hcomment⟩, hbad⟩, rfl⟩
    · exact ⟨t, ht, rfl, .inl ⟨hcode, hbad⟩⟩
    · exact ⟨t, ht, rfl, .inr ⟨hcomment, hbad⟩⟩
  · rintro ⟨t, ht, rfl, ⟨hcode, hbad⟩ | ⟨hcomment, hbad⟩⟩
    · exact ⟨t, .inl ⟨⟨ht, hcode⟩, hbad⟩, rfl⟩
    · exact ⟨t, .inr ⟨⟨ht, hcomment⟩, hbad⟩, rfl⟩

/-- Only tokens that lead their lines are not where they should be. -/
theorem exists_of_mem_all {source : Text} {tree : Node} (h : tree.WellFormed source)
    (hs : s.CutFrom source tree.pieces) (hl : s.Lined) {m : Mismatch} (hm : m ∈ all s c g widths) :
    ∃ t < s.size, m = of s widths t ∧ s.leads t = true ∧ g.isExempt t = false ∧
      fits s c widths t t = false := by
  obtain ⟨t, ht, rfl, ⟨-, hbad⟩ | ⟨hcomment, hbad⟩⟩ := mem_all.1 hm
  · simp only [isMisplaced, Bool.and_eq_true, Bool.not_eq_true'] at hbad
    exact ⟨t, ht, rfl, hbad.1.1, hbad.1.2, hbad.2⟩
  · simp only [isStray, Bool.and_eq_true, Bool.not_eq_true'] at hbad
    obtain ⟨⟨⟨⟨hblank, hexempt⟩, -⟩, -⟩, hfits⟩ := hbad
    exact ⟨t, ht, rfl, TokenStream.leads_of_hasBlankMargin h.clear hs hl ht hcomment hblank, hexempt, hfits⟩

end Mismatch

theorem IndentRule.exists_all_of_mismatches {o : IndentOptions} {tree : Node} {s : TokenStream}
    {ms : List Mismatch} (h : mismatches o tree s = .ok ms) :
    ∃ g widths, ms = Mismatch.all s o.indentChar g widths := by
  rw [mismatches] at h
  obtain ⟨widths, -, h⟩ := bind_eq_ok_iff.1 h
  exact ⟨_, widths, (Except.ok.inj h).symm⟩

/-- A violation is about a token. -/
theorem IndentRule.exists_of_mem_check {o : IndentOptions} {d : Document} {violations : List Violation}
    (h : check o d = .ok violations) {v : Violation} (hv : v ∈ violations) :
    ∃ t < d.stream.size, v.range = (d.stream.token t).range := by
  rw [check] at h
  split at h
  · next ms hms =>
    obtain rfl : ms.map (violation o d.stream) = violations := by simpa using h
    obtain ⟨m, hm, rfl⟩ := List.mem_map.1 hv
    obtain ⟨g, widths, rfl⟩ := exists_all_of_mismatches hms
    obtain ⟨t, ht, rfl, -⟩ := Mismatch.mem_all.1 hm
    exact ⟨t, ht, rfl⟩
  · cases h

/-! ## Findings of a linter -/

namespace Linter

/-- All rules are the indentation rule, with whatever options. -/
def Indents (l : Linter) : Prop := ∀ active ∈ l.rules, ∃ o, active.rule = IndentRule.rule o

variable {l : Linter} {round : Nat} {source : Text} {tree : Node} {d : Document}

theorem lintTree_eq (hclean : tree.tainted = false) (hd : Document.of source tree = .ok d) :
    l.lintTree round source tree =
      (l.rules.mapM (findings (.ofTokens d.stream) round d) >>= fun found =>
        .ok (found.flatten.mergeSort Finding.atMost)) := by
  rw [lintTree, hclean, hd]
  rfl

/-- What one rule finds is what its check finds where it is not suppressed. -/
theorem findings_eq {suppression : Suppression} {active : ActiveRule} :
    findings suppression round d active = (active.rule.check round d).map fun violations =>
      (violations.filter fun v =>
        !suppression.holds active.rule.name.toList v.range.start).map fun v =>
          ⟨active.rule.name, if active.keepsFixes then v else { v with fix := none }⟩ := by
  rw [findings]
  cases active.rule.check round d <;> rfl

/-- Each finding is a violation that a rule has found, with its fix if the fixes of the rule are kept. -/
theorem exists_eq_of_mem_lintTree {found : List Finding} (hclean : tree.tainted = false)
    (hd : Document.of source tree = .ok d) (h : l.lintTree round source tree = .ok found)
    {f : Finding} (hf : f ∈ found) :
    ∃ active ∈ l.rules, ∃ violations, active.rule.check round d = .ok violations ∧
      ∃ v ∈ violations,
        f = ⟨active.rule.name, if active.keepsFixes then v else { v with fix := none }⟩ := by
  rw [lintTree_eq hclean hd] at h
  obtain ⟨fs, hfs, h⟩ := bind_eq_ok_iff.1 h
  obtain rfl := Except.ok.inj h
  obtain ⟨fl, hfl, hf⟩ := List.mem_flatten.1 (List.mem_mergeSort.1 hf)
  obtain ⟨active, hactive, hfind⟩ := exists_of_mem_mapM hfs hfl
  rw [findings_eq] at hfind
  obtain ⟨violations, hcheck, rfl⟩ := map_eq_ok_iff.1 hfind
  obtain ⟨v, hv, rfl⟩ := List.mem_map.1 hf
  exact ⟨active, hactive, violations, hcheck, v, (List.mem_filter.1 hv).1, rfl⟩

/-- Each finding tells of a violation that a rule has found. -/
theorem exists_of_mem_lintTree {found : List Finding} (hclean : tree.tainted = false)
    (hd : Document.of source tree = .ok d) (h : l.lintTree round source tree = .ok found)
    {f : Finding} (hf : f ∈ found) :
    ∃ active ∈ l.rules, ∃ violations, active.rule.check round d = .ok violations ∧
      ∃ v ∈ violations, f.violation.range = v.range ∧ ∀ fix ∈ f.violation.fix, v.fix = some fix := by
  obtain ⟨active, hactive, violations, hcheck, v, hv, rfl⟩ :=
    exists_eq_of_mem_lintTree hclean hd h hf
  refine ⟨active, hactive, violations, hcheck, v, hv, ?_⟩
  cases active.keepsFixes
  · exact ⟨rfl, nofun⟩
  · exact ⟨rfl, fun fix hfix => hfix⟩

/-- The check of the indentation rule only fails for want of a width. -/
theorem exists_unresolved {e : LintError} (hclean : tree.tainted = false)
    (hd : Document.of source tree = .ok d) (hl : l.Indents)
    (h : l.lintTree round source tree = .error e) :
    ∃ cause, e = .unresolved IndentRule.name cause := by
  rw [lintTree_eq hclean hd] at h
  rcases bind_eq_error_iff.1 h with h | ⟨fs, -, h⟩
  · obtain ⟨active, hactive, hfind⟩ := exists_of_mapM_error h
    obtain ⟨o, ho⟩ := hl active hactive
    rw [findings_eq, ho] at hfind
    change (IndentRule.check o d).map _ = _ at hfind
    cases hms : IndentRule.mismatches o d.tree d.stream with
    | ok ms => simp [IndentRule.check, hms, Except.map] at hfind
    | error cause =>
      simp only [IndentRule.check, hms, Except.map, Except.error.injEq] at hfind
      exact ⟨cause, hfind.symm⟩
  · cases h

/-- A tree in the order of the grammar can be checked. -/
theorem exists_lintTree (hclean : tree.tainted = false) (hfits : tree.Fits source)
    (hd : Document.of source tree = .ok d) (horder : IndentRule.InOrder d.stream tree)
    (hl : l.Indents) : ∃ found, l.lintTree round source tree = .ok found := by
  obtain ⟨fs, hfs, -⟩ : ∃ fs, l.rules.mapM (findings (.ofTokens d.stream) round d) = .ok fs ∧
      List.Forall₂ (fun _ _ => True) l.rules fs := exists_mapM_ok fun active hactive => by
    obtain ⟨o, ho⟩ := hl active hactive
    obtain ⟨d', hd', -, -, -, violations, hcheck⟩ := IndentRule.exists_check hfits
      (fun d' hd' => by
        obtain rfl : d = d' := by simpa [hd] using hd'
        exact horder) o
    obtain rfl : d = d' := by simpa [hd] using hd'
    rw [findings_eq, ho]
    change ∃ y, (IndentRule.check o d).map _ = _ ∧ _
    rw [hcheck]
    exact ⟨_, rfl, trivial⟩
  rw [lintTree_eq hclean hd, hfs]
  exact ⟨_, rfl⟩

/-- An edit of the indentation rule mends a mismatch. -/
theorem exists_mismatch_of_mem_wantedEdits {found : List Finding} {level : Applicability}
    (hclean : tree.tainted = false) (hl : l.Indents) (hd : Document.of source tree = .ok d)
    (hfound : l.lintTree round source tree = .ok found) {e : Edit} (he : e ∈ wantedEdits level found) :
    ∃ o ms, IndentRule.mismatches o d.tree d.stream = .ok ms ∧ ∃ m ∈ ms,
      e = .replacement (Text.fill o.indentChar.char m.expected)
        (d.stream.token m.token).marginRange := by
  obtain ⟨fix, hfix, he⟩ := List.mem_flatMap.1 he
  obtain ⟨f, hf, hfix⟩ := List.mem_filterMap.1 hfix
  obtain ⟨active, hactive, violations, hcheck, v, hv, -, hvfix⟩ :=
    exists_of_mem_lintTree hclean hd hfound hf
  obtain ⟨o, ho⟩ := hl active hactive
  rw [ho] at hcheck
  change IndentRule.check o d = _ at hcheck
  rw [IndentRule.check] at hcheck
  split at hcheck
  · next ms hms =>
    obtain rfl : ms.map (IndentRule.violation o d.stream) = violations := by simpa using hcheck
    obtain ⟨m, hm, rfl⟩ := List.mem_map.1 hv
    have hfix' := hvfix fix hfix
    simp only [IndentRule.violation, Option.some.injEq] at hfix'
    subst hfix'
    split at he
    · exact ⟨o, ms, hms, m, hm, List.mem_singleton.1 he⟩
    · cases he
  · cases hcheck

/-- An edit of the indentation rule replaces the margin of a line by indentation. -/
theorem exists_of_mem_wantedEdits {found : List Finding} {level : Applicability}
    (h : tree.WellFormed source) (hclean : tree.tainted = false) (hl : l.Indents)
    (hd : Document.of source tree = .ok d) (hs : d.stream.CutFrom source tree.pieces)
    (hlined : d.stream.Lined) (hfound : l.lintTree round source tree = .ok found) {e : Edit}
    (he : e ∈ wantedEdits level found) :
    ∃ t < d.stream.size, d.stream.leads t = true ∧ ∃ (c : IndentChar) (n : Nat),
      e = .replacement (Text.fill c.char n) (d.stream.token t).marginRange := by
  obtain ⟨o, ms, hms, m, hm, rfl⟩ := exists_mismatch_of_mem_wantedEdits hclean hl hd hfound he
  obtain ⟨g, widths, rfl⟩ := IndentRule.exists_all_of_mismatches hms
  obtain ⟨t, ht, rfl, hlead, -⟩ := Mismatch.exists_of_mem_all h hs hlined hm
  exact ⟨t, ht, hlead, o.indentChar, _, rfl⟩

end Linter

/-! ## The linter of the rule -/

namespace IndentRule

/-- The linter that runs the indentation rule and keeps its fixes. -/
def linter (o : IndentOptions) : Linter := ⟨[⟨rule o, true⟩]⟩

/-- The mismatches that no directive suppresses. -/
def reported (s : TokenStream) (ms : List Mismatch) : List Mismatch :=
  ms.filter fun m => !(Suppression.ofTokens s).holds name.toList (s.token m.token).start

def finding (o : IndentOptions) (s : TokenStream) (m : Mismatch) : Finding := ⟨name, violation o s m⟩

/-- What a lint finds: all that is reported, in the order of the text. -/
def findings (o : IndentOptions) (s : TokenStream) (ms : List Mismatch) : List Finding :=
  ((reported s ms).map (finding o s)).mergeSort Finding.atMost

/-- The edit that puts a line where it should be. -/
def edit (o : IndentOptions) (s : TokenStream) (m : Mismatch) : Edit :=
  .replacement (Text.fill o.indentChar.char m.expected) (s.token m.token).marginRange

variable {o : IndentOptions} {source : Text} {tree : Node} {s : TokenStream} {round : Nat}

theorem indents_linter (o : IndentOptions) : (linter o).Indents := fun active hactive => by
  rw [List.mem_singleton.1 hactive]
  exact ⟨o, rfl⟩

theorem lintTree_linter (hclean : tree.tainted = false)
    (hs : TokenStream.ofTree source tree = .ok s) {ms : List Mismatch}
    (hms : mismatches o tree s = .ok ms) :
    (linter o).lintTree round source tree = .ok (findings o s ms) := by
  have hcheck : (rule o).check round ⟨source, .of source, tree, s⟩ =
      .ok (ms.map (violation o s)) := by
    change check o _ = _
    simp only [check, hms]
  rw [Linter.lintTree_eq hclean (document_of hs), linter]
  simp only [List.mapM_cons, List.mapM_nil, Linter.findings_eq, hcheck, Except.map, bind, Except.bind,
    pure, Except.pure, List.flatten_cons, List.flatten_nil, List.append_nil, List.filter_map,
    List.map_map, if_true]
  rfl

theorem exists_of_lintTree_linter (hclean : tree.tainted = false)
    (hs : TokenStream.ofTree source tree = .ok s) {found : List Finding}
    (hfound : (linter o).lintTree round source tree = .ok found) :
    ∃ ms, mismatches o tree s = .ok ms ∧ found = findings o s ms := by
  cases hms : mismatches o tree s with
  | ok ms =>
    rw [lintTree_linter hclean hs hms, Except.ok.injEq] at hfound
    exact ⟨ms, rfl, hfound.symm⟩
  | error cause =>
    have hcheck : (rule o).check round ⟨source, .of source, tree, s⟩ =
        .error (.unresolved name cause) := by
      change check o _ = _
      simp only [check, hms]
    rw [Linter.lintTree_eq hclean (document_of hs), linter] at hfound
    simp [Linter.findings_eq, hcheck, Except.map, bind, Except.bind] at hfound

/-- What is found where one line of code is not where it should be. -/
theorem mismatches_eq_singleton {widths : Array Nat} {t : Nat}
    (hwidths : (graph o tree s).resolve s o.indentChar = .ok widths)
    (hcode : s.codeIds.filter (Mismatch.isMisplaced s o.indentChar (graph o tree s) widths) = [t])
    (hcomments : s.commentIds.filter (Mismatch.isStray s o.indentChar (graph o tree s) widths) = []) :
    mismatches o tree s = .ok [.of s widths t] := by
  have hall : Mismatch.all s o.indentChar (graph o tree s) widths = [.of s widths t] := by
    rw [Mismatch.all, hcode, hcomments, List.append_nil, List.mergeSort_singleton]
    rfl
  rw [mismatches]
  change (graph o tree s).resolve s o.indentChar >>= _ = _
  rw [hwidths]
  exact congrArg Except.ok hall

/-- Every finding has one edit, whatever the level. -/
theorem wantedEdits_perm (level : Applicability) (ms : List Mismatch) :
    (Linter.wantedEdits level (findings o s ms)).Perm ((reported s ms).map (edit o s)) := by
  have hmap : ∀ kept : List Mismatch,
      Linter.wantedEdits level (kept.map (finding o s)) = kept.map (edit o s) := by
    intro kept
    induction kept with
    | nil => rfl
    | cons m kept ih =>
      rw [List.map_cons, List.map_cons, ← ih]
      rfl
  rw [← hmap]
  exact ((List.mergeSort_perm _ _).filterMap _).flatMap_right _

end IndentRule

end Indentation
