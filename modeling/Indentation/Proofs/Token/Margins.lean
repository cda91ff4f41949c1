import Indentation.Proofs.Text.Above
import Indentation.Proofs.Token.LineStarts

/-!
# Margins of leading tokens

A token that leads its line has nothing but its margin before it on the line: the margin runs from the
start of the line to the token and no other token reaches into it.  A comment behind blanks leads its
line.  So an edit of either margin is an edit of a margin of the text.
-/

namespace Indentation

open Text Lines

theorem Form.isComment_classify {form : Form} {text : Text} :
    (form.classify text).isComment = true ↔ form = .comment := by
  cases form with
  | comment =>
    simp only [classify, iff_true]
    split <;> rfl
  | leaf kind named =>
    simp only [classify, reduceCtorEq, iff_false]
    split
    · exact nofun
    · split <;> exact nofun
  | _ => simp [classify, TokenKind.isComment]

theorem Form.classify_eq_jsxText {form : Form} {text : Text} :
    form.classify text = .jsxText ↔ form = .jsxText := by
  cases form with
  | comment =>
    simp only [classify, reduceCtorEq, iff_false]
    split <;> exact nofun
  | leaf kind named =>
    simp only [classify, reduceCtorEq, iff_false]
    split
    · exact nofun
    · split <;> exact nofun
  | _ => simp [classify]

theorem isTerminator_eq_false_of_not_blank {c : Char} (h : isBlank c = false) :
    Lexeme.isTerminator c = false := by
  by_contra ht
  rw [Bool.not_eq_false, isTerminator_iff] at ht
  rcases ht with rfl | rfl <;> cases h

/-- The end of a text shows on its last line. -/
theorem exists_mem_lastLine {a t : Text} (hne : t ≠ []) (hbegin : ∀ c ∈ t.head?, isBlank c = false)
    (hend : t.Flat ∨ ∀ c ∈ t.getLast?, isBlank c = false) :
    ∃ c ∈ Lexeme.lastLine (a ++ t), isBlank c = false := by
  rcases hend with hflat | hend
  · rw [(lastLine_append_flat a hflat).1]
    obtain ⟨c, t, rfl⟩ := List.exists_cons_of_ne_nil hne
    exact ⟨c, List.mem_append_right _ List.mem_cons_self, hbegin c rfl⟩
  · obtain ⟨c, hc⟩ := Option.isSome_iff_exists.1 (List.getLast?_isSome.2 hne)
    obtain ⟨u, rfl⟩ := List.getLast?_eq_some_iff.1 hc
    have hblank := hend c hc
    have hflat : Flat [c] := fun d hd => by
      rw [List.mem_singleton.1 hd]
      exact isTerminator_eq_false_of_not_blank hblank
    rw [← List.append_assoc, (lastLine_append_flat _ hflat).1]
    exact ⟨c, List.mem_append_right _ List.mem_cons_self, hblank⟩

/-- A part that ends a line with something that shows does not part a pair. -/
theorem not_partsPair_of_end {a t b : Text} (hne : t ≠ [])
    (hend : t.Flat ∨ ∀ c ∈ t.getLast?, isBlank c = false) : ¬PartsPair (a ++ t) b := by
  rw [partsPair_append_left hne]
  rcases hend with hflat | hend
  · exact hflat.not_partsPair_left
  · rintro ⟨ht, -⟩
    cases hend '\r' ht

namespace TokenStream

namespace CutFrom

variable {source : Text} {xs : List Lexeme} {s : TokenStream} (hs : s.CutFrom source xs)
include hs

/-- The margin of a token runs from the start of its line. -/
theorem exists_margin {i : Nat} (hi : i < s.size) :
    ∃ u b, source = u ++ (s.token i).margin ++ ((s.token i).text ++ b) ∧ u.EndsLine ∧
      (s.token i).margin.Flat ∧ Text.size u = (s.token i).lineStart ∧
      Text.size (u ++ (s.token i).margin) = (s.token i).start := by
  obtain ⟨x, hx, hcut⟩ := hs.getElem_cut hi
  obtain ⟨a, b, hsource, hstart, -, hmargin⟩ := hcut.parts
  have ha : earlierLines a ++ (s.token i).margin = a := hmargin ▸ earlierLines_append_lastLine a
  have hsize : (s.token i).start = Text.size (earlierLines a) + Text.size (s.token i).margin := by
    rw [hcut.start_eq, ← hstart, ← size_append, ha]
  refine ⟨earlierLines a, b, ?_, endsLine_earlierLines a, hmargin ▸ flat_lastLine a, ?_, ?_⟩
  · rw [ha, hsource, List.append_assoc]
  · rw [Token.lineStart, hsize]
    omega
  · rw [size_append, hsize]

end CutFrom

variable {source : Text} {xs : List Lexeme} {s : TokenStream} (h : Lexeme.Clear source xs)
  (hs : s.CutFrom source xs)
include h hs

/-- No token of the text starts between CR and LF. -/
theorem not_partsPair {i : Nat} (hi : i < s.size) {a b : Text}
    (hsource : source = a ++ (s.token i).text ++ b) (hstart : Text.size a = (s.token i).start)
    (hstop : Text.size (a ++ (s.token i).text) = (s.token i).stop) :
    ¬PartsPair a ((s.token i).text ++ b) := by
  obtain ⟨x, hx, hcut⟩ := hs.getElem_cut hi
  exact h.unparted x hx _ (Lexeme.parts?_eq_some_iff.2
    ⟨hsource, hstart.trans hcut.start_eq, hstop.trans hcut.stop_eq⟩)

/-- Looking back from a token finds where the line of the token starts. -/
theorem lineStart_eq {i : Nat} (hi : i < s.size) :
    (s.token i).lineStart = (Lines.of source).lineStart source (s.token i).startLine := by
  obtain ⟨x, hx, hcut⟩ := hs.getElem_cut hi
  obtain ⟨a, b, hsource, hstart, hstop, -⟩ := hcut.parts
  have hp := not_partsPair h hs hi hsource (hstart.trans hcut.start_eq.symm)
    (hstop.trans hcut.stop_eq.symm)
  rw [List.append_assoc] at hsource
  exact hcut.lineStart_eq hsource (hstart.trans hcut.start_eq.symm) hp

variable (hl : s.Lined)
include hl

omit h in
theorem text_ne_nil {i : Nat} (hi : i < s.size) : (s.token i).text ≠ [] := by
  obtain ⟨x, hx, hcut⟩ := hs.getElem_cut hi
  obtain ⟨a, b, -, hstart, hstop, -⟩ := hcut.parts
  intro hnil
  rw [hnil, List.append_nil, hstart] at hstop
  have := hl.start_lt_stop i hi
  rw [hcut.start_eq, hcut.stop_eq] at this
  omega

/-- Two tokens on one line: what is between them is part of the line, and what shows of the first one
is in the margin of the second. -/
theorem exists_mem_margin {i j : Nat} (hi : i < s.size) (hji : j < i)
    (hline : (s.token j).endLine = (s.token i).startLine) (hjsx : (s.token j).kind ≠ .jsxText) :
    ∃ c ∈ (s.token i).margin, isBlank c = false := by
  have hne := text_ne_nil hs hl (i := j) (by omega)
  obtain ⟨x, hx, hxcut⟩ := hs.getElem_cut (i := j) (by omega)
  obtain ⟨y, hy, hycut⟩ := hs.getElem_cut hi
  obtain ⟨a, b, hsource, hstart, hstop, -⟩ := hxcut.parts
  obtain ⟨a', b', hsource', hstart', hstop', hmargin⟩ := hycut.parts
  have hunparted := not_partsPair h hs hi hsource' (hstart'.trans hycut.start_eq.symm)
    (hstop'.trans hycut.stop_eq.symm)
  have hform : x.form ≠ .jsxText := by
    intro hform
    rw [hxcut.kind_eq, hform] at hjsx
    exact hjsx rfl
  have hp := Lexeme.parts?_eq_some_iff.2 ⟨hsource, hstart, hstop⟩
  have hbegin := h.begins x hx hform _ hp
  have hend := h.ends x hx hform _ hp
  have hle := hl.stop_le_start j i hji hi
  rw [hxcut.stop_eq, hycut.start_eq] at hle
  obtain ⟨w, rfl, rfl⟩ : ∃ w, a' = a ++ (s.token j).text ++ w ∧ b = w ++ ((s.token i).text ++ b') :=
    exists_between (by rw [← hsource, hsource', List.append_assoc]) (by omega)
  have hpair := not_partsPair_of_end (a := a) (b := w ++ ((s.token i).text ++ b')) hne hend
  have h₁ : (Lines.of source).lineOf x.stop = (terminators (a ++ (s.token j).text)).length + 1 := by
    rw [hsource, ← hstop]
    exact lineOf_append hpair
  have h₂ : (Lines.of source).lineOf y.start =
      (terminators (a ++ (s.token j).text ++ w)).length + 1 := by
    rw [hsource', List.append_assoc _ (s.token i).text, ← hstart']
    exact lineOf_append hunparted
  have hw : w.Flat := by
    rw [hxcut.endLine_eq, hycut.startLine_eq, h₁, h₂,
      terminators_append (not_partsPair_of_end hne hend), List.length_append] at hline
    rw [← terminators_eq_nil_iff, ← List.length_eq_zero_iff]
    omega
  obtain ⟨c, hc, hblank⟩ := exists_mem_lastLine (a := a) hne hbegin hend
  refine ⟨c, ?_, hblank⟩
  rw [hmargin, (lastLine_append_flat _ hw).1]
  exact List.mem_append_left _ hc

/-- Only white space stands before a comment on its line just if no other token does. -/
theorem leads_of_hasBlankMargin {i : Nat} (hi : i < s.size) (hc : s.isComment i = true)
    (hblank : s.hasBlankMargin i = true) : s.leads i = true := by
  rw [hl.leads_iff hi]
  intro j hj
  by_contra hle
  have hline : (s.token j).endLine = (s.token i).startLine := by
    have := hl.endLine_le j i hj hi
    omega
  by_cases hjsx : (s.token j).kind = .jsxText
  · obtain ⟨x, hx, hxcut⟩ := hs.getElem_cut (i := j) (by omega)
    obtain ⟨y, hy, hycut⟩ := hs.getElem_cut hi
    have hxform : x.form = .jsxText := by
      rw [hxcut.kind_eq] at hjsx
      exact Form.classify_eq_jsxText.1 hjsx
    have hyform : y.form = .comment := by
      rw [isComment, Token.isComment, hycut.kind_eq] at hc
      exact Form.isComment_classify.1 hc
    have hstop := hl.stop_le_start j i hj hi
    rw [hxcut.stop_eq, hycut.start_eq] at hstop
    rw [hxcut.endLine_eq, hycut.startLine_eq] at hline
    exact h.uncommented x hx hxform y hy hyform hstop hline
  · obtain ⟨c, hc, hnot⟩ := exists_mem_margin h hs hl hi hj hline hjsx
    rw [List.all_eq_true.1 hblank c hc] at hnot
    cases hnot

/-- The text of an element does not lead a line with a line feed. -/
theorem head?_text_of_leads {i : Nat} (hi : i < s.size) (hlead : s.leads i = true) :
    (s.token i).text.head? ≠ some '\n' := by
  intro hhead
  obtain ⟨x, hx, hxcut⟩ := hs.getElem_cut hi
  obtain ⟨a, b, hsource, hstart, hstop, -⟩ := hxcut.parts
  have hp := Lexeme.parts?_eq_some_iff.2 ⟨hsource, hstart, hstop⟩
  by_cases hform : x.form = .jsxText
  · obtain ⟨y, hy, hyx⟩ := h.contiguous x hx hform _ hp hhead
    obtain ⟨j, hj, rfl⟩ := List.getElem_of_mem hy
    have hycut := hs.token_cut j hj
    have hjs : j < s.size := hs.size_eq ▸ hj
    have hji : j < i := by
      refine hl.lt_of_start_lt hjs ?_
      have := hl.start_lt_stop j hjs
      rw [hycut.stop_eq, hyx] at this
      rwa [hxcut.start_eq]
    have := (hl.leads_iff hi).1 hlead j hji
    rw [hycut.endLine_eq, hxcut.startLine_eq, hyx] at this
    omega
  · cases h.begins x hx hform _ hp '\n' hhead

/-- What comes before a token that leads its line ends before the line starts. -/
theorem stop_lt_lineStart {i j : Nat} (hi : i < s.size) (hlead : s.leads i = true) (hj : j < i) :
    (s.token j).stop < (s.token i).lineStart := by
  obtain ⟨x, hx, hcut⟩ := hs.getElem_cut (i := j) (by omega)
  obtain ⟨a, b, hsource, -, hstop, -⟩ := hcut.parts
  have hlt := (hl.leads_iff hi).1 hlead j hj
  have hone := one_le_lineOf source x.stop
  rw [hcut.endLine_eq] at hlt
  rw [lineStart_eq h hs hi, hcut.stop_eq]
  by_contra hge
  obtain ⟨y, hy, hycut⟩ := hs.getElem_cut hi
  obtain ⟨c, d, hsource', hstart', hstop', -⟩ := hycut.parts
  have hle := hl.stop_le_start j i hj hi
  have hpos := hl.start_lt_stop i hi
  rw [hcut.stop_eq, hycut.start_eq] at hle
  rw [hycut.start_eq, hycut.stop_eq] at hpos
  have hsize : x.stop < Text.size source := by
    rw [hsource', size_append, hstop']
    omega
  have := (lineStart_le_iff (t := source) (by omega) hsize).1 (Nat.le_of_not_lt hge)
  omega

/-- A line that a token leads: the lines above it, the margin, and the token with what follows it. -/
theorem exists_line_of_leads {i : Nat} (hi : i < s.size) (hlead : s.leads i = true) :
    ∃ u b, source = u ++ (s.token i).margin ++ ((s.token i).text ++ b) ∧ u.EndsLine ∧
      (s.token i).margin.Flat ∧ ((s.token i).text ++ b).head? ≠ some '\n' ∧
      Text.size u = (s.token i).lineStart ∧
      Text.size (u ++ (s.token i).margin) = (s.token i).start ∧
      (terminators u).length + 1 = (s.token i).startLine := by
  obtain ⟨u, b, hsource, hend, hmargin, hstart, hstop⟩ := hs.exists_margin hi
  have hhead : ((s.token i).text ++ b).head? ≠ some '\n' := by
    obtain ⟨c, t, ht⟩ := List.exists_cons_of_ne_nil (text_ne_nil hs hl hi)
    have := head?_text_of_leads h hs hl hi hlead
    rw [ht] at this ⊢
    simpa using this
  refine ⟨u, b, hsource, hend, hmargin, hhead, hstart, hstop, ?_⟩
  have hline := lineOf_append (not_partsPair_of_head? (a := u ++ (s.token i).margin) hhead)
  rw [← hsource, hstop, hs.lineOf_start hi,
    terminators_append hmargin.not_partsPair_right, hmargin.terminators_eq, List.append_nil] at hline
  exact hline.symm

/-- A line that a token leads and that is not the last one: the lines above it, the margin, the rest of
the line, and the lines below it. -/
theorem exists_line_below {i : Nat} (hi : i < s.size) (hlead : s.leads i = true)
    (hlt : (s.token i).startLine < (Lines.of source).count) :
    ∃ u l q, source = u ++ (s.token i).margin ++ l ++ q ∧ Text.size u = (s.token i).lineStart ∧
      Text.size (u ++ (s.token i).margin) = (s.token i).start ∧ l ≠ [] ∧ l.head? ≠ some '\n' ∧
      l.EndsLine ∧ ¬PartsPair l q ∧
      (terminators u).length + (terminators l).length = (s.token i).startLine ∧
      (Lines.of source).lineStart source ((s.token i).startLine + 1) =
        Text.size (u ++ (s.token i).margin ++ l) := by
  obtain ⟨u, b, hsource, -, hflat, hhead, hstart, hstop, -⟩ := exists_line_of_leads h hs hl hi hlead
  obtain ⟨x, q, hxq, hxend, hxpair, hxline⟩ := exists_endsLine (Nat.le_add_left 1 _) hlt
  have hbelow := lineStart_of_endsLine hxend hxpair
  rw [hxline, ← hxq] at hbelow
  have hinside : Text.size (u ++ (s.token i).margin) < Text.size x := by
    have hpos := Text.size_pos (text_ne_nil hs hl hi)
    have hin : (s.token i).start < Text.size source := by
      rw [hsource, ← hstop]
      simp only [size_append]
      omega
    have hnot := mt (lineStart_le_iff (Nat.le_add_left 1 (s.token i).startLine) hin).1
      (hs.lineOf_start hi ▸ Nat.not_succ_le_self _)
    rw [hbelow] at hnot
    omega
  obtain ⟨l, rfl, hb⟩ : ∃ l, x = (u ++ (s.token i).margin) ++ l ∧ _ = l ++ q :=
    exists_between (by rw [← hsource, hxq]) (Nat.le_of_lt hinside)
  have hne : l ≠ [] := by
    rintro rfl
    rw [List.append_nil] at hinside
    omega
  rw [hb] at hhead
  have hlhead := head?_ne_of_append hhead
  refine ⟨u, l, q, hxq, hstart, hstop, hne, hlhead,
    fun c hc => hxend c (by rwa [List.getLast?_append_of_ne_nil _ hne]),
    by rwa [partsPair_append_left hne] at hxpair, ?_, hbelow⟩
  rw [List.append_assoc, terminators_append (not_partsPair_of_head? (hflat.head?_append hlhead)),
    terminators_append hflat.not_partsPair_left, hflat.terminators_eq, List.nil_append,
    List.length_append] at hxline
  omega

/-- A line starts no later than the lines behind it that tokens lead. -/
theorem lineStart_le_of_leads {i line : Nat} (hi : i < s.size) (hlead : s.leads i = true)
    (h₁ : 1 ≤ line) (hle : line ≤ (s.token i).startLine) :
    (Lines.of source).lineStart source line ≤ (s.token i).lineStart := by
  obtain ⟨u, b, hsource, -, hflat, hhead, hsize, -, hline⟩ := exists_line_of_leads h hs hl hi hlead
  have hpos := Text.size_pos (text_ne_nil hs hl hi)
  have hlt : Text.size u < Text.size source := by
    rw [hsource]
    simp only [size_append]
    omega
  rw [List.append_assoc] at hsource
  rw [← hsize, lineStart_le_iff h₁ hlt]
  have hlineOf := lineOf_append (not_partsPair_of_head? (a := u) (hflat.head?_append hhead))
  rw [← hsource, hline] at hlineOf
  omega

/-- The margin of a token that leads its line may be replaced by any characters of a line. -/
theorem isMargin_of_leads {i : Nat} (hi : i < s.size) (hlead : s.leads i = true) {content : Text}
    (hflat : content.Flat) :
    Edit.IsMargin source (.replacement content (s.token i).marginRange) := by
  obtain ⟨u, b, hsource, hend, hmargin, hhead, hstart, hstop, -⟩ :=
    exists_line_of_leads h hs hl hi hlead
  refine ⟨u, (s.token i).margin, (s.token i).text ++ b, hsource, ?_, ?_, hend, hmargin, hhead, ?_⟩
  · rw [Edit.range_replacement, hstart]
    rfl
  · rw [Edit.range_replacement, hstop]
    rfl
  · rw [Edit.getD_content_replacement]
    exact hflat

omit hl

/-- The column of a token is the length of its margin. -/
theorem column_eq_length {i : Nat} (hi : i < s.size) :
    (s.token i).column = (s.token i).margin.length := by
  obtain ⟨x, -, hcut⟩ := hs.getElem_cut hi
  obtain ⟨a, b, hsource, hstart, hstop, -⟩ := hcut.parts
  have hp := not_partsPair h hs hi hsource (hstart.trans hcut.start_eq.symm)
    (hstop.trans hcut.stop_eq.symm)
  rw [List.append_assoc] at hsource
  exact hcut.column_eq_length hsource (hstart.trans hcut.start_eq.symm) hp

/-- A token that follows right behind a token of one line stands as many characters further in. -/
theorem column_of_adjacent {i j : Nat} (hi : i < s.size) (hj : j < s.size)
    (hflat : (s.token i).text.Flat) (hadjacent : (s.token j).start = (s.token i).stop) :
    (s.token j).column = (s.token i).column + (s.token i).text.length := by
  obtain ⟨x, -, hxcut⟩ := hs.getElem_cut hi
  obtain ⟨a, b, hsource, -, hstop, hmargin⟩ := hxcut.parts
  obtain ⟨y, -, hycut⟩ := hs.getElem_cut hj
  obtain ⟨c, d, hsource', hstart', -, hmargin'⟩ := hycut.parts
  rw [hxcut.stop_eq, hycut.start_eq] at hadjacent
  have hsplit : c = a ++ (s.token i).text := by
    rw [hsource, List.append_assoc c] at hsource'
    exact (append_inj_of_size hsource' (by omega)).1.symm
  rw [column_eq_length h hs hi, column_eq_length h hs hj, hmargin, hmargin', hsplit,
    (lastLine_append_flat a hflat).1, List.length_append]

end TokenStream

end Indentation
