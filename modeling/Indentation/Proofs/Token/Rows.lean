import Indentation.Proofs.Token.Cut

/-!
# Tokens on their lines

Later tokens stand on later lines, so the token that leads a line is the one that nothing before it
reaches.
-/

namespace Indentation

open Text Lines

theorem Token.touches_startLine (t : Token) : t.touches t.startLine = true := by
  simp [Token.touches]

namespace TokenStream

/-- Tokens in order on lines in order, where each line knows its leader. -/
structure Lined (s : TokenStream) : Prop extends s.Ordered where
  startLine_le : ∀ i < s.size, (s.token i).startLine ≤ (s.token i).endLine
  endLine_le : ∀ i j, i < j → j < s.size → (s.token i).endLine ≤ (s.token j).startLine
  leader?_eq : ∀ i < s.size, s.leader? (s.token i).startLine =
    s.tokens.toList.findIdx? (Token.touches (s.token i).startLine)

theorem getElem_toList {s : TokenStream} {i : Nat} (hi : i < s.tokens.toList.length) :
    s.tokens.toList[i] = s.token i := by
  rw [Array.length_toList] at hi
  rw [Array.getElem_toList, token, Array.getD_eq_getD_getElem?, Array.getElem?_eq_getElem hi,
    Option.getD_some]

/-- The first token to reach a line, if any does. -/
theorem findIdx?_touches_eq_some_iff {s : TokenStream} {line k : Nat} :
    s.tokens.toList.findIdx? (Token.touches line) = some k ↔
      k < s.size ∧ (s.token k).touches line = true ∧ ∀ j < k, (s.token j).touches line = false := by
  rw [List.findIdx?_eq_some_iff_getElem]
  constructor
  · rintro ⟨hk, htouch, hmin⟩
    rw [getElem_toList] at htouch
    refine ⟨by simpa [size] using hk, htouch, fun j hj => ?_⟩
    have := hmin j hj
    rw [getElem_toList] at this
    simpa using this
  · rintro ⟨hk, htouch, hmin⟩
    have hk' : k < s.tokens.toList.length := by simpa [size] using hk
    refine ⟨hk', by rwa [getElem_toList], fun j hj => ?_⟩
    rw [getElem_toList]
    simpa using hmin j hj

namespace Lined

variable {s : TokenStream} (h : s.Lined)
include h

theorem startLine_le_startLine {i j : Nat} (hij : i ≤ j) (hj : j < s.size) :
    (s.token i).startLine ≤ (s.token j).startLine := by
  rcases Nat.eq_or_lt_of_le hij with rfl | hij
  · exact Nat.le_refl _
  · exact Nat.le_trans (h.startLine_le i (by omega)) (h.endLine_le i j hij hj)

/-- The leader of the line that a token starts on is the first token to reach that line. -/
theorem leader?_eq_some_iff {i k : Nat} (hi : i < s.size) :
    s.leader? (s.token i).startLine = some k ↔
      k < s.size ∧ (s.token k).touches (s.token i).startLine = true ∧
        ∀ j < k, (s.token j).touches (s.token i).startLine = false := by
  rw [h.leader?_eq i hi, findIdx?_touches_eq_some_iff]

/-- A token leads its line if everything before it ends on earlier lines. -/
theorem leads_iff {i : Nat} (hi : i < s.size) :
    s.leads i = true ↔ ∀ j < i, (s.token j).endLine < (s.token i).startLine := by
  rw [leads, beq_iff_eq, h.leader?_eq_some_iff hi]
  constructor
  · rintro ⟨-, -, hmin⟩ j hj
    have hle := h.endLine_le j i hj hi
    have := hmin j hj
    simp only [Token.touches, Bool.or_eq_false_iff, beq_eq_false_iff_ne] at this
    omega
  · intro hlt
    refine ⟨hi, Token.touches_startLine _, fun j hj => ?_⟩
    have h₁ := hlt j hj
    have h₂ := h.startLine_le j (by omega)
    simp only [Token.touches, Bool.or_eq_false_iff, beq_eq_false_iff_ne]
    omega

theorem exists_leader {i : Nat} (hi : i < s.size) :
    ∃ k ≤ i, s.leader? (s.token i).startLine = some k := by
  cases hk : s.leader? (s.token i).startLine with
  | none =>
    rw [h.leader?_eq i hi, List.findIdx?_eq_none_iff] at hk
    have hi' : i < s.tokens.toList.length := by simpa [size] using hi
    have := hk _ (List.getElem_mem hi')
    rw [getElem_toList, Token.touches_startLine] at this
    cases this
  | some k =>
    refine ⟨k, ?_, rfl⟩
    by_contra hlt
    have := ((h.leader?_eq_some_iff hi).1 hk).2.2 i (by omega)
    rw [Token.touches_startLine] at this
    cases this

theorem leaderOf_le {i : Nat} (hi : i < s.size) : s.leaderOf i ≤ i := by
  obtain ⟨k, hk, hleader⟩ := h.exists_leader hi
  rwa [leaderOf, hleader]

/-- A token that leads its line shares it with no token before. -/
theorem sameStartLine_eq_false {i j : Nat} (hi : i < s.size) (hlead : s.leads i = true) (hj : j < i) :
    s.sameStartLine i j = false := by
  have h₁ := (h.leads_iff hi).1 hlead j hj
  have h₂ := h.startLine_le j (by omega)
  rw [sameStartLine, beq_eq_false_iff_ne]
  omega

end Lined

namespace CutFrom

variable {source : Text} {xs : List Lexeme} {s : TokenStream} (h : s.CutFrom source xs)
include h

theorem getElem_cut {i : Nat} (hi : i < s.size) :
    ∃ x ∈ xs, (s.token i).CutFrom source x := by
  have hi' : i < xs.length := h.size_eq ▸ hi
  exact ⟨xs[i], List.getElem_mem hi', h.token_cut i hi'⟩

theorem exists_token {x : Lexeme} (hx : x ∈ xs) : ∃ i < s.size, (s.token i).CutFrom source x := by
  obtain ⟨i, hi, rfl⟩ := List.getElem_of_mem hx
  exact ⟨i, h.size_eq ▸ hi, h.token_cut i hi⟩

theorem lineOf_start {i : Nat} (hi : i < s.size) :
    (Lines.of source).lineOf (s.token i).start = (s.token i).startLine := by
  obtain ⟨x, -, hcut⟩ := h.getElem_cut hi
  rw [hcut.start_eq, hcut.startLine_eq]

theorem lined (hpair : xs.Pairwise fun x y => x.stop ≤ y.start)
    (hlt : ∀ x ∈ xs, x.start < x.stop) : s.Lined where
  start_lt_stop i hi := by
    obtain ⟨x, hx, hcut⟩ := h.getElem_cut hi
    rw [hcut.start_eq, hcut.stop_eq]
    exact hlt x hx
  stop_le_start i j hij hj := by
    have hj' : j < xs.length := h.size_eq ▸ hj
    rw [(h.token_cut i (by omega)).stop_eq, (h.token_cut j hj').start_eq]
    exact List.pairwise_iff_getElem.1 hpair i j (by omega) hj' hij
  startLine_le i hi := by
    obtain ⟨x, hx, hcut⟩ := h.getElem_cut hi
    rw [hcut.startLine_eq, hcut.endLine_eq]
    exact lineOf_mono source (Nat.le_of_lt (hlt x hx))
  endLine_le i j hij hj := by
    have hj' : j < xs.length := h.size_eq ▸ hj
    rw [(h.token_cut i (by omega)).endLine_eq, (h.token_cut j hj').startLine_eq]
    exact lineOf_mono source (List.pairwise_iff_getElem.1 hpair i j (by omega) hj' hij)
  leader?_eq i hi := by
    obtain ⟨x, hx, hcut⟩ := h.getElem_cut hi
    refine h.leader?_eq _ ?_
    rw [hcut.startLine_eq]
    exact lineOf_le_count source x.start

end CutFrom

/-! ## Two streams with tokens on the same lines -/

variable {s s' : TokenStream}

theorem token_of_size_le {i : Nat} (hi : s.size ≤ i) : s.token i = default := by
  rw [token, Array.getD_eq_getD_getElem?, Array.getElem?_eq_none hi, Option.getD_none]

variable (hsize : s'.size = s.size)
include hsize

/-- What is the same for all tokens is the same for all numbers. -/
theorem token_congr {α : Type} (g : Token → α) (h : ∀ i < s.size, g (s'.token i) = g (s.token i))
    (i : Nat) : g (s'.token i) = g (s.token i) := by
  by_cases hi : i < s.size
  · exact h i hi
  · rw [token_of_size_le (s := s) (by omega), token_of_size_le (s := s') (by omega)]

/-- The same tokens lead the lines. -/
theorem leader?_congr {source source' : Text} {xs xs' : List Lexeme} (hs : s.CutFrom source xs)
    (hs' : s'.CutFrom source' xs') (hcount : (Lines.of source').count = (Lines.of source).count)
    (hstart : ∀ i < s.size, (s'.token i).startLine = (s.token i).startLine)
    (hend : ∀ i < s.size, (s'.token i).endLine = (s.token i).endLine) (i : Nat) :
    s'.leader? (s.token i).startLine = s.leader? (s.token i).startLine := by
  have hrows : s'.tokens.toList.map (fun t => (t.startLine, t.endLine)) =
      s.tokens.toList.map fun t => (t.startLine, t.endLine) := by
    refine List.ext_getElem ?_ fun i hi₁ hi₂ => ?_
    · simpa [size] using hsize
    · have hi : i < s.size := by simpa [size] using hi₂
      simp only [List.getElem_map, getElem_toList, hstart i hi, hend i hi]
  have htouch : ∀ line, Token.touches line = (fun p : Nat × Nat => p.1 == line || p.2 == line) ∘
      fun t : Token => (t.startLine, t.endLine) := fun _ => rfl
  have hline : (s.token i).startLine ≤ (Lines.of source).count := by
    by_cases hi : i < s.size
    · obtain ⟨x, -, hcut⟩ := hs.getElem_cut hi
      rw [hcut.startLine_eq]
      exact lineOf_le_count source x.start
    · rw [token_of_size_le (by omega), count_of]
      exact Nat.le_add_left 1 _
  rw [hs.leader?_eq _ hline, hs'.leader?_eq _ (hcount ▸ hline), htouch, ← List.findIdx?_map,
    ← List.findIdx?_map, hrows]

end TokenStream

namespace Node.Fits

variable {source : Text} {tree : Node} (h : tree.Fits source)
include h

theorem pairwise_pieces : tree.pieces.Pairwise fun x y => x.stop ≤ y.start :=
  h.runs.pairwise.filter _

theorem start_lt_stop {x : Lexeme} (hx : x ∈ tree.pieces) : x.start < x.stop := by
  obtain ⟨hx, hne⟩ := mem_pieces_iff.1 hx
  have := (h.runs.mem hx).2.1
  omega

/-- The tokens of a tree that fits the text can be cut. -/
theorem exists_ofTree : ∃ s, TokenStream.ofTree source tree = .ok s ∧
    s.CutFrom source tree.pieces ∧ s.Lined := by
  obtain ⟨s, hs, hcut⟩ := TokenStream.exists_ofTree h.runs fun x hx =>
    h.exists_parts (mem_pieces_iff.1 hx).1
  exact ⟨s, hs, hcut, hcut.lined h.pairwise_pieces fun x hx => h.start_lt_stop hx⟩

end Node.Fits

end Indentation
