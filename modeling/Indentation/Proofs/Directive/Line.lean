import Indentation.Proofs.Directive.InForce
import Indentation.Proofs.Text.LineEnds

/-!
# Directives for a line

A directive for a line puts its rules off on one whole line and on no other, whatever terminators the
lines end with: the one on which its comment starts, or the one below that.  Directives for a line and
those that put rules off and on do not act on each other.

The line below the start of a comment is not below the comment when the comment goes over several lines.
-/

namespace Indentation

open Text Lines

namespace Directive

theorem switch?_of_isForLine {d : Directive} (h : isForLine d.action = true) (key : Text) :
    d.switch? key = none := by
  rw [switch?]
  cases haction : d.action <;> simp_all [isForLine]

end Directive

namespace Suppression

open Directive

/-! ## Two kinds of directives -/

section Kinds

variable {source : Text} {ds : List (Nat × Directive)} {rule key : Text} {p : Nat}

theorem inForce_filter_not_isForLine :
    inForce key p (ds.filter fun e => !isForLine e.2.action) = inForce key p ds := by
  induction ds using List.reverseRecOn with
  | nil => rfl
  | append_singleton ds e ih =>
    rw [List.filter_append, inForce_concat]
    by_cases hline : isForLine e.2.action = true
    · simp [hline, ih, switch?_of_isForLine hline]
    · simp [hline, ih, inForce_concat]

theorem inForce_of_isForLine (h : ∀ e ∈ ds, isForLine e.2.action = true) : inForce key p ds = false := by
  have hnone : ds.filter (fun e => !isForLine e.2.action) = [] := by simpa using h
  rw [← inForce_filter_not_isForLine, hnone]
  rfl

theorem onLine_filter_isForLine :
    OnLine source (ds.filter fun e => isForLine e.2.action) rule p ↔ OnLine source ds rule p := by
  simp only [OnLine, List.mem_filter]
  exact exists_congr fun e => ⟨fun ⟨⟨he, _⟩, hrest⟩ => ⟨he, hrest⟩, fun ⟨he, hrest⟩ => ⟨⟨he, hrest.1⟩, hrest⟩⟩

theorem not_onLine_of_not_isForLine (h : ∀ e ∈ ds, isForLine e.2.action = false) :
    ¬OnLine source ds rule p := by
  rintro ⟨e, he, hline, -⟩
  rw [h e he] at hline
  cases hline

end Kinds

/-- What the directives for a line suppress. -/
def forLines (s : TokenStream) : Suppression :=
  ofDirectives s.source ((directives s).filter fun e => isForLine e.2.action)

/-- What the other directives suppress, which put rules off and on. -/
def forSpans (s : TokenStream) : Suppression :=
  ofDirectives s.source ((directives s).filter fun e => !isForLine e.2.action)

variable {source : Text} {tree : Node} {s : TokenStream} {rule : Text} {p i : Nat}

theorem holds_forLines (hs : TokenStream.ofTree source tree = .ok s) (hp : p ≤ size source) :
    (forLines s).holds rule p = true ↔ OnLine source (directives s) rule p := by
  have hline : ∀ e ∈ (directives s).filter fun e => isForLine e.2.action, isForLine e.2.action = true :=
    fun e he => (List.mem_filter.1 he).2
  rw [forLines, TokenStream.source_of_ofTree hs,
    holds_ofDirectives_iff ((pairwise_directives hs).filter _) hp, inForce_of_isForLine hline,
    inForce_of_isForLine hline, onLine_filter_isForLine]
  simp

theorem holds_forSpans (hs : TokenStream.ofTree source tree = .ok s) (hp : p ≤ size source) :
    (forSpans s).holds rule p = true ↔
      inForce rule p (directives s) = true ∨ inForce everyRule p (directives s) = true := by
  rw [forSpans, TokenStream.source_of_ofTree hs,
    holds_ofDirectives_iff ((pairwise_directives hs).filter _) hp, inForce_filter_not_isForLine,
    inForce_filter_not_isForLine, or_iff_left]
  exact not_onLine_of_not_isForLine fun e he => by simpa using (List.mem_filter.1 he).2

/-- The two kinds of directives add up. -/
theorem holds_eq_or (hs : TokenStream.ofTree source tree = .ok s) (hp : p ≤ size source) :
    (ofTokens s).holds rule p = ((forLines s).holds rule p || (forSpans s).holds rule p) := by
  rw [Bool.eq_iff_iff, Bool.or_eq_true, holds_forLines hs hp, holds_forSpans hs hp, holds_iff hs hp,
    or_comm]

/-! ## The line of an offset -/

/-- Whether a comment is a directive of one kind and about a rule. -/
def Directs (s : TokenStream) (action : Action) (rule : Text) (id : Nat) : Prop :=
  id ∈ s.commentIds ∧ ∃ d, ofComment? (s.token id).kind (s.token id).text = some d ∧
    d.action = action ∧ d.isAbout rule = true

/-- Whether an offset parts a CR from the LF behind it. -/
def PartsCrlf (source : Text) (p : Nat) : Prop :=
  ∃ a b, source = a ++ b ∧ size a = p ∧ PartsPair a b

/-- A directive for a line is for the offsets on that line, those between CR and LF apart. -/
theorem onLine_append_iff {a b : Text} {ds : List (Nat × Directive)} (hb : b ≠ []) :
    OnLine (a ++ b) ds rule (size a) ↔ ¬PartsPair a b ∧
      ∃ e ∈ ds, isForLine e.2.action = true ∧ e.2.isAbout rule = true ∧
        (Lines.of (a ++ b)).lineOf (size a) = e.2.lineFor (.of (a ++ b)) e.1 := by
  rw [OnLine]
  simp only [lineStart_le_and_le_lineEnd_iff (one_le_lineFor _ _ _) hb]
  constructor
  · rintro ⟨e, he, hline, habout, heq, hp⟩
    exact ⟨hp, e, he, hline, habout, heq⟩
  · rintro ⟨hp, e, he, hline, habout, heq⟩
    exact ⟨e, he, hline, habout, heq, hp⟩

/-- The directives for a line, told apart by the line that they are for. -/
theorem exists_forLine_iff {line : Nat} :
    (∃ e ∈ directives s, isForLine e.2.action = true ∧ e.2.isAbout rule = true ∧
        line = e.2.lineFor (.of source) e.1) ↔
      (∃ k, Directs s .disableLine rule k ∧ line = (Lines.of source).lineOf (s.token k).start) ∨
      ∃ k, Directs s .disableNextLine rule k ∧
        line = (Lines.of source).lineOf (s.token k).start + 1 := by
  constructor
  · rintro ⟨e, he, hline, habout, heq⟩
    obtain ⟨k, hk, hread⟩ := List.mem_filterMap.1 he
    obtain ⟨d, hd, rfl⟩ := Option.map_eq_some_iff.1 hread
    cases haction : d.action with
    | disable => simp [isForLine, haction] at hline
    | enable => simp [isForLine, haction] at hline
    | disableLine => exact .inl ⟨k, ⟨hk, d, hd, haction, habout⟩, by simpa [lineFor, haction] using heq⟩
    | disableNextLine =>
      exact .inr ⟨k, ⟨hk, d, hd, haction, habout⟩, by simpa [lineFor, haction] using heq⟩
  · have hmem : ∀ k ∈ s.commentIds, ∀ d, ofComment? (s.token k).kind (s.token k).text = some d →
        ((s.token k).start, d) ∈ directives s := fun k hk d hd =>
      List.mem_filterMap.2 ⟨k, hk, by rw [hd, Option.map_some]⟩
    rintro (⟨k, ⟨hk, d, hd, haction, habout⟩, heq⟩ | ⟨k, ⟨hk, d, hd, haction, habout⟩, heq⟩)
    · exact ⟨_, hmem k hk d hd, by simp [isForLine, haction], habout, by simp [lineFor, haction, heq]⟩
    · exact ⟨_, hmem k hk d hd, by simp [isForLine, haction], habout, by simp [lineFor, haction, heq]⟩

theorem partsCrlf_append_iff {a b : Text} : PartsCrlf (a ++ b) (size a) ↔ PartsPair a b := by
  refine ⟨fun ⟨a', b', heq, hsize, hp⟩ => ?_, fun hp => ⟨a, b, rfl, rfl, hp⟩⟩
  obtain ⟨rfl, rfl⟩ := append_inj_of_size heq hsize.symm
  exact hp

theorem holds_forLines_append {a b : Text} (hs : TokenStream.ofTree (a ++ b) tree = .ok s) (hb : b ≠ [])
    (rule : Text) :
    (forLines s).holds rule (size a) = true ↔ ¬PartsCrlf (a ++ b) (size a) ∧
      ((∃ k, Directs s .disableLine rule k ∧ (Lines.of (a ++ b)).lineOf (size a) =
          (Lines.of (a ++ b)).lineOf (s.token k).start) ∨
        ∃ k, Directs s .disableNextLine rule k ∧ (Lines.of (a ++ b)).lineOf (size a) =
          (Lines.of (a ++ b)).lineOf (s.token k).start + 1) := by
  rw [holds_forLines hs (by simp), onLine_append_iff hb, exists_forLine_iff, partsCrlf_append_iff]

/-- The directives for a line suppress a rule at the tokens that start on the line on which one of
their comments starts, or on the line below that.  For a comment of one line that is the line below the
comment.  A token that starts with the LF of a CR LF is on no line.  In a text that is shorter than the
largest offset the offset behind the end of each line can be said. -/
theorem holds_forLines_token (hs : TokenStream.ofTree source tree = .ok s)
    (hsize : size source < Offset.limit) (hi : i < s.size) (rule : Text) :
    (∀ r ∈ (ofTokens s).regions, r.stop ≤ Offset.limit) ∧
    ((forLines s).holds rule (s.token i).start = true ↔ ¬PartsCrlf source (s.token i).start ∧
      ((∃ k, Directs s .disableLine rule k ∧ (Lines.of source).lineOf (s.token i).start =
          (Lines.of source).lineOf (s.token k).start) ∨
        ∃ k, Directs s .disableNextLine rule k ∧ (Lines.of source).lineOf (s.token i).start =
          (Lines.of source).lineOf (s.token k).start + 1)) ∧
    (¬PartsCrlf source (s.token i).start →
      (∀ k, Directs s .disableNextLine rule k →
        (Lines.of source).lineOf (s.token k).stop = (Lines.of source).lineOf (s.token k).start) →
      ((forLines s).holds rule (s.token i).start = true ↔
        (∃ k, Directs s .disableLine rule k ∧ (Lines.of source).lineOf (s.token i).start =
            (Lines.of source).lineOf (s.token k).start) ∨
          ∃ k, Directs s .disableNextLine rule k ∧ (Lines.of source).lineOf (s.token i).start =
            (Lines.of source).lineOf (s.token k).stop + 1)) ∧
    (ofTokens s).holds rule (s.token i).start =
      ((forLines s).holds rule (s.token i).start || (forSpans s).holds rule (s.token i).start) := by
  refine ⟨stop_le_limit hs hsize, ?_⟩
  obtain ⟨a, b, rfl, hstart, hne⟩ := TokenStream.exists_parts_of_ofTree hs hi
  rw [List.append_assoc] at hs ⊢
  rw [← hstart]
  have hexact := holds_forLines_append hs (by simp [hne]) rule
  refine ⟨hexact, fun hparts hone => ?_, holds_eq_or hs (by simp)⟩
  rw [hexact, and_iff_right hparts]
  refine or_congr_right (exists_congr fun k => and_congr_right fun hk => ?_)
  rw [hone k hk]

/-! ## Small texts -/

/-- A directive for the line below, behind CR LF. -/
def belowText : Text := "/*eslint-disable-next-line*/\r\nb".toList

def belowTree : Node :=
  .mk ⟨"program", ⟨0, 31, by decide⟩, true, false, false, false, false, none⟩
    [.mk ⟨"comment", ⟨0, 28, by decide⟩, true, true, false, false, false, none⟩ [],
     .mk ⟨"identifier", ⟨30, 31, by decide⟩, true, false, false, false, false, none⟩ []]

def belowStream : TokenStream where
  source := belowText
  tokens := #[
    ⟨.blockComment, ⟨0, 28, by decide⟩, "/*eslint-disable-next-line*/".toList, [], 1, 1, 0⟩,
    ⟨.identifier, ⟨30, 31, by decide⟩, ['b'], [], 2, 2, 0⟩]
  leaders := #[none, some 0, some 1, none]

theorem ofTree_belowTree : TokenStream.ofTree belowText belowTree = .ok belowStream := by
  rw [TokenStream.ofTree_of_pairwise (by decide)]
  decide +kernel

theorem directs_belowStream :
    Directs belowStream .disableNextLine ['a'] 0 ∧
      ∀ k, Directs belowStream .disableNextLine ['a'] k → k = 0 := by
  refine ⟨⟨by decide, ⟨.disableNextLine, [everyRule]⟩, by decide⟩, fun k hk => ?_⟩
  have hids : belowStream.commentIds = [0] := by decide
  simpa [hids] using hk.1

theorem holds_forLines_token_belowTree : (forLines belowStream).holds ['a'] 30 = true := by
  have hparts : ¬PartsCrlf belowText 30 :=
    (partsCrlf_append_iff (a := "/*eslint-disable-next-line*/\r\n".toList) (b := ['b'])).not.2 (by decide)
  refine ((holds_forLines_token ofTree_belowTree (by decide) (i := 1) (by decide) ['a']).2.2.1 hparts
    fun k hk => ?_).2 (.inr ⟨0, directs_belowStream.1, by decide +kernel⟩)
  rw [directs_belowStream.2 k hk]
  decide +kernel

/-- The same directive in a comment of two lines, where the line below the start is still in the
comment. -/
def aroundStream : TokenStream where
  source := "/*eslint-disable-next-line\n*/\nb".toList
  tokens := #[
    ⟨.blockComment, ⟨0, 29, by decide⟩, "/*eslint-disable-next-line\n*/".toList, [], 1, 2, 0⟩,
    ⟨.identifier, ⟨30, 31, by decide⟩, ['b'], [], 3, 3, 0⟩]
  leaders := #[none, some 0, some 0, some 1, none]

example : (forLines aroundStream).regions = [⟨everyRule, 27, 30⟩] ∧
    (forLines aroundStream).holds ['a'] 30 = false := by decide +kernel

end Suppression

end Indentation
