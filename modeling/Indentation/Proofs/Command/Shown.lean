import Indentation.Command.Report
import Indentation.Proofs.Diff.Patch
import Indentation.Proofs.Lint.Stable

/-!
# What is shown and what is written

The difference that is shown for a file is a patch that leads from the text of the file to the text that
fixing writes into it.
-/

namespace Indentation

/-! ## Files that are written -/

namespace FileTree

variable {t : FileTree} {place other : Location} {text old : Text} {rounds before : Nat}

theorem lookup_map_of_fst {entries : List (Location × Content)} (new : Content) :
    (entries.map fun e => if e.1 = place then (e.1, new) else e).lookup other =
      (entries.lookup other).map fun c => if other = place then new else c := by
  induction entries with
  | nil => rfl
  | cons e entries ih =>
    obtain ⟨key, content⟩ := e
    by_cases hother : other = key
    · subst hother
      by_cases hplace : other = place <;> simp [hplace]
    · by_cases hplace : key = place
      · subst hplace
        simp [List.lookup_cons, beq_false_of_ne hother, ih]
      · simp [List.lookup_cons, beq_false_of_ne hother, hplace, ih]

/-- Only the written file has changed. -/
theorem contentAt?_write (h : t.contentAt? place = some (.text old before)) :
    (t.write place text rounds).contentAt? other =
      if other = place then some (.text text (t.roundsAt place + rounds)) else t.contentAt? other := by
  obtain ⟨content, hlookup⟩ : ∃ content, t.entries.lookup place = some content := by
    rw [contentAt?] at h
    split at h
    · next content hlookup => exact ⟨content, hlookup⟩
    · split at h <;> cases h
  have hany : ((t.write place text rounds).entries.any fun e => (below? other e.1).isSome) =
      t.entries.any fun e => (below? other e.1).isSome := by
    rw [write, List.any_map]
    congr 1
    funext e
    simp only [Function.comp_apply]
    split <;> rfl
  rw [contentAt?, contentAt?, hany, write, lookup_map_of_fst]
  by_cases hother : other = place
  · simp [hother, hlookup]
  · cases t.entries.lookup other <;> simp [hother]

theorem step?_write (h : t.contentAt? place = some (.text old before)) :
    (t.write place text rounds).step? = t.step? := by
  have hdirectory : ∀ other, (t.write place text rounds).isDirectoryAt other = t.isDirectoryAt other := by
    intro other
    rw [isDirectoryAt, isDirectoryAt, contentAt?_write h]
    split
    · next heq => rw [heq, h]; rfl
    · rfl
  have hsome : ∀ other, ((t.write place text rounds).contentAt? other).isSome =
      (t.contentAt? other).isSome := by
    intro other
    rw [contentAt?_write h]
    split
    · next heq => rw [heq, h]; rfl
    · rfl
  funext at_ segment
  simp only [step?, hdirectory, hsome]

/-- A file that was written is found where it was. -/
theorem locate?_write (h : t.contentAt? place = some (.text old before)) (path : String) :
    (t.write place text rounds).locate? path = t.locate? path := by
  rw [locate?, locate?, step?_write h]
  rfl

theorem exists_of_read {path : String} (h : t.read path = .ok old) :
    ∃ place before, t.locate? path = some place ∧ t.contentAt? place = some (.text old before) := by
  rw [read, find?] at h
  cases hplace : t.locate? path with
  | none => simp [hplace] at h
  | some place =>
    simp only [hplace, Option.bind_eq_bind, Option.bind_some] at h
    split at h
    · next text before hcontent =>
      obtain rfl : text = old := by simpa using h
      exact ⟨place, before, rfl, hcontent⟩
    · cases h
    · cases h

/-- What was written is read. -/
theorem read_write {path : String} (hplace : t.locate? path = some place)
    (hcontent : t.contentAt? place = some (.text old before)) :
    (t.write place text rounds).read path = .ok text := by
  rw [read, find?, locate?_write hcontent, hplace]
  simp only [Option.bind_eq_bind, Option.bind_some, contentAt?_write hcontent, if_pos]

end FileTree

/-! ## One file -/

namespace Report

variable {l : Linter} {parse : Parser} {level : Applicability} {t t' : FileTree} {path : String}
  {old : Text} {s : FixState} {report : Report}

/-- Only to show the difference leaves the files as they are. -/
theorem ofFix_diffOnly (hread : t.read path = .ok old) (hfix : l.fix parse level old = .ok s)
    (hchanged : s.changed = true) (h : ofFix l parse level true t path = .ok (report, t')) :
    t' = t ∧ report.diff = (Diff.render path old s.source).map String.ofList := by
  cases hlines : findingLines path s.source s.remaining with
  | error e => simp [ofFix, source, hread, hfix, hlines, bind, Except.bind] at h
  | ok lines =>
    simp only [ofFix, source, hread, hfix, hlines, hchanged, bind, Except.bind, pure, Except.pure,
      Bool.not_true, Bool.false_eq_true, if_false, if_true, Except.ok.injEq, Prod.mk.injEq] at h
    obtain ⟨rfl, rfl⟩ := h
    exact ⟨rfl, rfl⟩

/-- Otherwise the file has the fixed text afterwards. -/
theorem read_of_ofFix (hread : t.read path = .ok old) (hfix : l.fix parse level old = .ok s)
    (hchanged : s.changed = true) (h : ofFix l parse level false t path = .ok (report, t')) :
    t'.read path = .ok s.source := by
  obtain ⟨place, before, hplace, hcontent⟩ := FileTree.exists_of_read hread
  cases hlines : findingLines path s.source s.remaining with
  | error e => simp [ofFix, source, hread, hfix, hlines, bind, Except.bind] at h
  | ok lines =>
    simp only [ofFix, source, hread, hfix, hlines, hchanged, hplace, bind, Except.bind, pure,
      Except.pure, Bool.not_true, Bool.false_eq_true, if_false, Except.ok.injEq, Prod.mk.injEq,
      Option.map_some, Option.getD_some] at h
    rw [← h.2]
    exact FileTree.read_write hplace hcontent

end Report

namespace Diff

/-- A difference is printed hunk by hunk, and for texts of equally many rows its hunks are a patch.  It
is what only showing the fixes of a file shows, and the patch leads to the text that fixing writes. -/
theorem exists_isPatch_render (path : String) {old new : Text}
    (h : (Text.rows old).length = (Text.rows new).length) :
    ∃ hs, render path old new = ("--- a/" ++ path).toList :: ("+++ b/" ++ path).toList ::
        hs.flatMap Hunk.texts ∧
      IsPatch hs (Text.rows old) (Text.rows new) ∧
      ∀ l parse level t s, FileTree.read t path = .ok old → Linter.fix l parse level old = .ok s →
        s.source = new → s.changed = true →
        (∀ shown t', Report.ofFix l parse level true t path = .ok (shown, t') →
          t' = t ∧ shown.diff = (render path old new).map String.ofList) ∧
        ∀ done t', Report.ofFix l parse level false t path = .ok (done, t') →
          t'.read path = .ok new := by
  refine ⟨hunks old new, rfl, isPatch_hunks h, ?_⟩
  rintro l parse level t s hread hfix rfl hchanged
  exact ⟨fun shown t' hshown => Report.ofFix_diffOnly hread hfix hchanged hshown,
    fun done t' hdone => Report.read_of_ofFix hread hfix hchanged hdone⟩

/-! ### A small file -/

def sampleOld : Text := "x\n1\n2\n3\n4\n5\n6\n7\ny\n".toList

/-- The first row and the last one are further in. -/
def sampleNew : Text := " x\n1\n2\n3\n4\n5\n6\n7\n y\n".toList

def sampleFiles : FileTree := ⟨"/", [(["a"], .text sampleOld 0)]⟩

def sampleFix : Fix := ⟨[.insertion [' '] 16, .insertion [' '] 0], .safe⟩

/-- The rule finds what is wrong once. -/
def sampleRule : Rule where
  name := "margin"
  check := fun round _ => .ok (if round = 0 then [⟨"Margin", "", .point 0, some sampleFix⟩] else [])

def sampleLinter : Linter := ⟨[⟨sampleRule, true⟩]⟩

def emptyTree : Node := .mk ⟨"program", .point 0, true, false, false, false, false, none⟩ []

theorem ofTree_emptyTree (source : Text) : TokenStream.ofTree source emptyTree =
    .ok ⟨source, #[], TokenStream.leadersOf (Lines.of source).count []⟩ := by
  have hnone : (emptyTree.lexemes.filter fun x => x.start ≠ x.stop) = [] := by decide
  rw [TokenStream.ofTree]
  simp only [hnone, List.mergeSort_nil]
  rfl

theorem lint_sampleLinter (round : Nat) (source : Text) :
    sampleLinter.lint (fun _ _ => some emptyTree) round source =
      .ok (if round = 0 then [⟨"margin", "Margin", "", .point 0, some sampleFix⟩] else []) := by
  have hdoc : Document.of source emptyTree = .ok ⟨source, .of source, emptyTree, source, #[],
      TokenStream.leadersOf (Lines.of source).count []⟩ := by
    rw [Document.of, ofTree_emptyTree]
    rfl
  change Linter.lintTree _ _ _ _ = _
  rw [Linter.lintTree_eq rfl hdoc]
  cases round with
  | zero =>
    change Except.ok (List.mergeSort [_] _) = _
    rw [List.mergeSort_singleton]
    rfl
  | succ round =>
    change Except.ok (List.mergeSort [] _) = _
    rw [List.mergeSort_nil]
    rfl

theorem exists_isPatch_render_sampleOld : ∃ hs, IsPatch hs (Text.rows sampleOld) (Text.rows sampleNew) ∧
    hs ≠ [] ∧ ∀ shown t', Report.ofFix sampleLinter (fun _ _ => some emptyTree) .safe true sampleFiles
      "a" = .ok (shown, t') → t' = sampleFiles := by
  obtain ⟨hs, -, hpatch, hfiles⟩ := @exists_isPatch_render "a" sampleOld sampleNew (by decide)
  refine ⟨hs, hpatch, ?_, fun shown t' hshown => ?_⟩
  · rintro rfl
    exact absurd hpatch.patch (by decide)
  · have hread : sampleFiles.read "a" = .ok sampleOld := by
      have hplace : sampleFiles.locate? "a" = some ["a"] := by decide +kernel
      rw [FileTree.read, FileTree.find?, hplace]
      rfl
    have hselect : Edit.select sampleFix.edits = sampleFix.edits := by
      have hsorted : sampleFix.edits.Pairwise fun a b =>
        decide (b.range.start ≤ a.range.start) = true := by decide
      rw [Edit.select, List.mergeSort_of_pairwise hsorted]
      rfl
    have hfix : sampleLinter.fix (fun _ _ => some emptyTree) .safe sampleOld =
        .ok ⟨sampleNew, (Edit.select sampleFix.edits).length, 1, []⟩ := by
      refine Linter.fix_of_pass (lint_sampleLinter 0 sampleOld) (by decide) ?_
        (lint_sampleLinter 1 sampleNew)
      change Edit.applyAll sampleOld (Edit.select sampleFix.edits) = _
      rw [hselect]
      rfl
    have hchanged : (Edit.select sampleFix.edits).length > 0 := by
      rw [hselect]
      decide
    exact ((hfiles _ _ _ _ _ hread hfix rfl (decide_eq_true hchanged)).1 shown t' hshown).1

end Diff

end Indentation
