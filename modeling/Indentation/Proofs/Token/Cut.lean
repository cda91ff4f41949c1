import Indentation.Proofs.Token.Leaders
import Indentation.Proofs.Token.Order
import Indentation.Proofs.Token.WellFormed
import Mathlib.Data.List.Forall2

/-!
# Cutting a text into tokens

A text can be cut along the lexemes of a tree whenever these follow each other and lie between its
characters.  Each token then knows what stands before it on its line, and the tokens are in order.
-/

namespace Indentation

open Text Lines

/-- A token holds what a text has at a lexeme, and says where that is. -/
structure Token.CutFrom (source : Text) (x : Lexeme) (t : Token) : Prop where
  kind_eq : t.kind = x.form.classify t.text
  start_eq : t.start = x.start
  stop_eq : t.stop = x.stop
  parts : ∃ a b, source = a ++ t.text ++ b ∧ size a = x.start ∧ size (a ++ t.text) = x.stop ∧
    t.margin = Lexeme.lastLine a
  startLine_eq : t.startLine = (Lines.of source).lineOf x.start
  endLine_eq : t.endLine = (Lines.of source).lineOf x.stop
  column_eq : (Lines.of source).column source x.start = .ok t.column

theorem Range.of_eq_ok {start stop : Nat} (h : start ≤ stop) : Range.of start stop = .ok ⟨start, stop, h⟩ :=
  dif_pos h

theorem Lexeme.cut_eq_ok {source a t b : Text} {x : Lexeme} (hsource : source = a ++ t ++ b)
    (hstart : size a = x.start) (hstop : size (a ++ t) = x.stop) :
    ∃ token, x.cut source (Lines.of source) = .ok token ∧ token.CutFrom source x := by
  have hle : x.start ≤ x.stop := by
    rw [← hstart, ← hstop, size_append]
    omega
  obtain ⟨column, hcol⟩ : ∃ n, (Lines.of source).column source x.start = .ok n := by
    rw [hsource, List.append_assoc, ← hstart]
    exact exists_column
  have h₁ : split source x.stop = .ok (a ++ t, b) := split_eq_ok_iff.2 ⟨hsource, hstop⟩
  have h₂ : split (a ++ t) x.start = .ok (a, t) := split_eq_ok_iff.2 ⟨rfl, hstart⟩
  refine ⟨⟨x.form.classify t, ⟨x.start, x.stop, hle⟩, t, Lexeme.lastLine a,
    (Lines.of source).lineOf x.start, (Lines.of source).lineOf x.stop, column⟩, ?_, ?_⟩
  · simp only [cut, Range.of_eq_ok hle, h₁, h₂, hcol, bind, Except.bind, pure, Except.pure]
  · exact ⟨rfl, rfl, rfl, ⟨a, b, hsource, hstart, hstop, rfl⟩, rfl, rfl, hcol⟩

theorem Lexeme.cutFrom_of_cut {source : Text} {x : Lexeme} {token : Token}
    (h : x.cut source (Lines.of source) = .ok token) : token.CutFrom source x := by
  have hcut := h
  simp only [cut, Range.of, bind, Except.bind] at hcut
  by_cases hle : x.start ≤ x.stop
  · rw [dif_pos hle] at hcut
    cases h₁ : split source x.stop with
    | error => simp [h₁] at hcut
    | ok parts =>
      cases h₂ : split parts.1 x.start with
      | error => simp [h₁, h₂] at hcut
      | ok parts' =>
        obtain ⟨hsource, hstop⟩ := split_eq_ok_iff.1 h₁
        obtain ⟨hparts, hstart⟩ := split_eq_ok_iff.1 h₂
        rw [hparts] at hsource hstop
        obtain ⟨token', htoken', hfrom⟩ := cut_eq_ok hsource hstart hstop
        obtain rfl : token' = token := Except.ok.inj (htoken'.symm.trans h)
        exact hfrom
  · simp [dif_neg hle] at hcut

deriving instance DecidableEq for TokenStream

namespace TokenStream

/-- A stream holds a token for each of the lexemes, and the leaders of all lines. -/
structure CutFrom (source : Text) (xs : List Lexeme) (s : TokenStream) : Prop where
  source_eq : s.source = source
  size_eq : s.size = xs.length
  token_cut : ∀ i (hi : i < xs.length), (s.token i).CutFrom source xs[i]
  leader?_eq : ∀ line ≤ (Lines.of source).count,
    s.leader? line = s.tokens.toList.findIdx? (Token.touches line)

theorem CutFrom.of_forall₂ {source : Text} {xs : List Lexeme} {ts : List Token}
    (h : List.Forall₂ (Token.CutFrom source) xs ts) :
    CutFrom source xs ⟨source, ts.toArray, leadersOf (Lines.of source).count ts⟩ where
  source_eq := rfl
  size_eq := h.length_eq.symm
  token_cut := fun i hi => by
    have hi' : i < ts.length := h.length_eq ▸ hi
    have hget : (⟨source, ts.toArray, leadersOf (Lines.of source).count ts⟩ : TokenStream).token i =
        ts[i] := by
      simp [token, Array.getD_eq_getD_getElem?, hi']
    rw [hget]
    exact h.get hi hi'
  leader?_eq := fun line hline => getD_leadersOf (by omega)

/-- Pieces that already come in the order of their starts are cut as they stand. -/
theorem ofTree_of_pairwise {source : Text} {tree : Node}
    (h : tree.pieces.Pairwise fun x y => x.start ≤ y.start) :
    ofTree source tree = (tree.pieces.mapM (Lexeme.cut source (Lines.of source))).map fun ts =>
      ⟨source, ts.toArray, leadersOf (Lines.of source).count ts⟩ := by
  have hsorted : (tree.lexemes.filter fun x => x.start ≠ x.stop).Pairwise
      fun x y => decide (x.start ≤ y.start) = true := h.imp decide_eq_true
  rw [ofTree]
  simp only [List.mergeSort_of_pairwise hsorted]
  rfl

/-- Lexemes that follow each other make a stream. -/
theorem exists_ofTree {source : Text} {tree : Node} {lo hi : Nat}
    (hruns : Lexeme.Runs lo hi tree.lexemes)
    (hparts : ∀ x ∈ tree.pieces, ∃ a t b, source = a ++ t ++ b ∧ Text.size a = x.start ∧
      Text.size (a ++ t) = x.stop) :
    ∃ s, ofTree source tree = .ok s ∧ s.CutFrom source tree.pieces := by
  have hsorted : tree.pieces.Pairwise fun x y => x.start ≤ y.start := by
    refine List.Pairwise.imp_of_mem ?_ (hruns.pairwise.filter _)
    intro x y hx hy hxy
    have := (hruns.mem (List.mem_of_mem_filter hx)).2.1
    omega
  obtain ⟨ts, hts, hR⟩ : ∃ ts, tree.pieces.mapM (Lexeme.cut source (Lines.of source)) = .ok ts ∧
      List.Forall₂ (Token.CutFrom source) tree.pieces ts := exists_mapM_ok fun x hx => by
    obtain ⟨a, t, b, hsource, hstart, hstop⟩ := hparts x hx
    exact Lexeme.cut_eq_ok hsource hstart hstop
  refine ⟨_, ?_, .of_forall₂ hR⟩
  rw [ofTree_of_pairwise hsorted, hts]
  rfl

variable {source : Text} {tree : Node} {s : TokenStream}

/-- The stream of any tree is cut from its pieces in the order of their starts. -/
theorem exists_cutFrom_of_ofTree (hs : ofTree source tree = .ok s) :
    ∃ xs : List Lexeme, xs.Perm tree.pieces ∧ xs.Pairwise (fun x y => x.start ≤ y.start) ∧
      s.CutFrom source xs := by
  simp only [ofTree, bind, Except.bind] at hs
  split at hs
  · cases hs
  · next ts hts =>
    cases hs
    refine ⟨tree.pieces.mergeSort fun x y => x.start ≤ y.start, List.mergeSort_perm _ _, ?_,
      .of_forall₂ ((forall₂_of_mapM hts).imp fun _ _ => Lexeme.cutFrom_of_cut)⟩
    have hsorted : (tree.pieces.mergeSort fun x y => x.start ≤ y.start).Pairwise
        fun x y => decide (x.start ≤ y.start) = true :=
      List.pairwise_mergeSort (by simp; omega) (by simp; omega) tree.pieces
    exact hsorted.imp of_decide_eq_true

theorem source_of_ofTree (hs : ofTree source tree = .ok s) : s.source = source :=
  have ⟨_, _, _, hcut⟩ := exists_cutFrom_of_ofTree hs
  hcut.source_eq

/-- The tokens of any tree come in the order of their starts. -/
theorem start_le_start_of_ofTree (hs : ofTree source tree = .ok s) {i j : Nat} (hij : i < j)
    (hj : j < s.size) : (s.token i).start ≤ (s.token j).start := by
  obtain ⟨xs, -, hsorted, hcut⟩ := exists_cutFrom_of_ofTree hs
  have hj' : j < xs.length := hcut.size_eq ▸ hj
  rw [(hcut.token_cut i (by omega)).start_eq, (hcut.token_cut j hj').start_eq]
  exact List.pairwise_iff_getElem.1 hsorted i j _ _ hij

/-- A token of any tree is a piece of the text with at least one character. -/
theorem exists_parts_of_ofTree (hs : ofTree source tree = .ok s) {i : Nat} (hi : i < s.size) :
    ∃ a b, source = a ++ (s.token i).text ++ b ∧ Text.size a = (s.token i).start ∧
      (s.token i).text ≠ [] := by
  obtain ⟨xs, hperm, -, hcut⟩ := exists_cutFrom_of_ofTree hs
  have hi' : i < xs.length := hcut.size_eq ▸ hi
  have htoken := hcut.token_cut i hi'
  obtain ⟨a, b, hsource, hstart, hstop, -⟩ := htoken.parts
  refine ⟨a, b, hsource, hstart.trans htoken.start_eq.symm, fun hempty => ?_⟩
  have hne := List.of_mem_filter (hperm.mem_iff.1 (List.getElem_mem hi'))
  rw [hempty, List.append_nil] at hstop
  simp [← hstart, ← hstop] at hne

end TokenStream

end Indentation
