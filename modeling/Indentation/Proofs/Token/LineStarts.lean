import Indentation.Proofs.Token.Rows

/-!
# Where the line of a token starts

A token finds the start of its line by looking back through the text, and the lines of the text by
their table. The two agree unless the token starts between CR and LF.
-/

namespace Indentation

open Text Lines

namespace Token.CutFrom

variable {source a b : Text} {x : Lexeme} {t : Token} (h : t.CutFrom source x)
  (hsource : source = a ++ b) (ha : size a = t.start)
include h hsource ha

/-- The margin of a token is what its line has before it. -/
theorem margin_eq : t.margin = Lexeme.lastLine a := by
  obtain ⟨a', b', hsource', ha', -, hmargin⟩ := h.parts
  rw [List.append_assoc, hsource] at hsource'
  obtain ⟨rfl, -⟩ := append_inj_of_size hsource' (by rw [ha, ha', h.start_eq])
  exact hmargin

variable (hp : ¬PartsPair a b)
include hp

/-- Looking back from a token finds where the line of the token starts. -/
theorem lineStart_eq : t.lineStart = (Lines.of source).lineStart source t.startLine := by
  have hline := lineStart_lineOf hp
  rw [← hsource, ha, h.start_eq, ← h.startLine_eq] at hline
  have hsize := congrArg size (earlierLines_append_lastLine a)
  rw [size_append, ← h.margin_eq hsource ha, ha] at hsize
  rw [Token.lineStart, hline]
  omega

/-- The column of a token is the length of its margin. -/
theorem column_eq_length : t.column = t.margin.length := by
  have hcolumn := h.column_eq
  rw [← h.start_eq, ← ha, hsource, column_append hp, Except.ok.injEq] at hcolumn
  rw [← hcolumn, h.margin_eq hsource ha]

end Token.CutFrom

namespace TokenStream

variable {source : Text} {xs : List Lexeme} {s : TokenStream}

/-- A token leads its line if nothing before it starts or ends there, in whatever order the tokens
are. -/
theorem CutFrom.leads_iff_forall_ne (h : s.CutFrom source xs) {i : Nat} (hi : i < s.size) :
    s.leads i = true ↔ ∀ j < i, (s.token j).startLine ≠ (s.token i).startLine ∧
      (s.token j).endLine ≠ (s.token i).startLine := by
  have hline : (s.token i).startLine ≤ (Lines.of source).count := by
    obtain ⟨x, -, hcut⟩ := h.getElem_cut hi
    rw [hcut.startLine_eq]
    exact lineOf_le_count source x.start
  rw [leads, beq_iff_eq, h.leader?_eq _ hline, findIdx?_touches_eq_some_iff]
  have huntouched : ∀ j, (s.token j).touches (s.token i).startLine = false ↔
      (s.token j).startLine ≠ (s.token i).startLine ∧
        (s.token j).endLine ≠ (s.token i).startLine := fun j => by
    simp only [Token.touches, Bool.or_eq_false_iff, beq_eq_false_iff_ne]
  simp only [huntouched]
  exact ⟨fun h => h.2.2, fun hmin => ⟨hi, Token.touches_startLine _, hmin⟩⟩

theorem eq_of_leads {i j : Nat} (hi : s.leads i = true) (hj : s.leads j = true)
    (hline : (s.token i).startLine = (s.token j).startLine) : i = j := by
  rw [leads, beq_iff_eq] at hi hj
  rw [hline, hj, Option.some.injEq] at hi
  exact hi.symm

/-- The tokens of a text can be cut along every tree that fits it, and whatever tree they are cut
along, they agree with the lines of the text: looking back from a token finds the start that the table
of lines has for its line, and its column counts the characters from there, unless the token starts
between CR and LF. It leads its line if nothing before it starts or ends there, so at most one token
does. -/
theorem lineStarts_agree (source : Text) (tree : Node) :
    (tree.Fits source → ∃ s, ofTree source tree = .ok s) ∧
    ∀ s, ofTree source tree = .ok s →
      (∀ i < s.size, ∃ a b, source = a ++ b ∧ Text.size a = (s.token i).start ∧
        (¬PartsPair a b →
          (s.token i).lineStart = (Lines.of source).lineStart source (s.token i).startLine ∧
          (s.token i).column = (s.token i).margin.length)) ∧
      (∀ i < s.size, s.leads i = true ↔ ∀ j < i, (s.token j).startLine ≠ (s.token i).startLine ∧
        (s.token j).endLine ≠ (s.token i).startLine) ∧
      ∀ i < s.size, ∀ j < s.size, s.leads i = true → s.leads j = true →
        (s.token i).startLine = (s.token j).startLine → i = j := by
  refine ⟨fun h => h.exists_ofTree.imp fun s hs => hs.1, fun s hs => ?_⟩
  obtain ⟨xs, -, -, hcut⟩ := exists_cutFrom_of_ofTree hs
  refine ⟨fun i hi => ?_, fun i hi => hcut.leads_iff_forall_ne hi,
    fun i _ j _ hi hj => eq_of_leads hi hj⟩
  obtain ⟨x, -, htoken⟩ := hcut.getElem_cut hi
  obtain ⟨a, b, hsource, ha, -⟩ := htoken.parts
  rw [List.append_assoc] at hsource
  rw [← htoken.start_eq] at ha
  exact ⟨a, _, hsource, ha, fun hp =>
    ⟨htoken.lineStart_eq hsource ha hp, htoken.column_eq_length hsource ha hp⟩⟩

/-! ## A comment over two lines -/

/-- The comment ends where the first name starts, and a CR of its own is between the names. -/
def spreadText : Text := "/*\r\n*/a\rb".toList

def spreadTree : Node :=
  .mk ⟨"program", (Range.point 0).cover (.point 9), true, false, false, false, false, none⟩
    [.mk ⟨"comment", (Range.point 0).cover (.point 6), true, true, false, false, false, none⟩ [],
     .mk ⟨"identifier", (Range.point 6).cover (.point 7), true, false, false, false, false, none⟩ [],
     .mk ⟨"identifier", (Range.point 8).cover (.point 9), true, false, false, false, false, none⟩ []]

def spreadStream : TokenStream where
  source := spreadText
  tokens := #[
    ⟨.blockComment, (Range.point 0).cover (.point 6), "/*\r\n*/".toList, [], 1, 2, 0⟩,
    ⟨.identifier, (Range.point 6).cover (.point 7), ['a'], ['*', '/'], 2, 2, 2⟩,
    ⟨.identifier, (Range.point 8).cover (.point 9), ['b'], [], 3, 3, 0⟩]
  leaders := #[none, some 0, some 0, some 2, none]

theorem ofTree_spreadTree : ofTree spreadText spreadTree = .ok spreadStream := by
  rw [ofTree_of_pairwise (by decide)]
  decide +kernel

/-- The comment keeps the name behind it from leading the second line, which starts behind CR LF. -/
theorem lineStarts_agree_spreadTree :
    (spreadStream.token 1).lineStart = (Lines.of spreadText).lineStart spreadText 2 ∧
      spreadStream.leads 1 = false ∧ spreadStream.leads 2 = true := by
  obtain ⟨hplaces, hleads, -⟩ := (lineStarts_agree spreadText spreadTree).2 _ ofTree_spreadTree
  obtain ⟨a, b, hsource, ha, hplace⟩ := hplaces 1 (by decide)
  have hsplit : a ++ b = "/*\r\n*/".toList ++ "a\rb".toList := hsource.symm.trans (by decide)
  obtain ⟨rfl, rfl⟩ := append_inj_of_size hsplit ha
  refine ⟨(hplace (by decide)).1, ?_, (hleads 2 (by decide)).2 (by decide)⟩
  rw [← Bool.not_eq_true, hleads 1 (by decide)]
  decide

end TokenStream

end Indentation
