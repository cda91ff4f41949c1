import Indentation.Proofs.Token.Margins
import Indentation.Proofs.Tree.Moved
import Mathlib.Order.Monotone.Basic

/-!
# Tokens that move along with their text

Edits of margins take every token to where they say, with the same text and on the same lines.
-/

namespace Indentation

open Text Lines

namespace Lexeme

def mapOffsets (f : Nat → Nat) (x : Lexeme) : Lexeme := ⟨f x.start, f x.stop, x.form⟩

theorem Runs.mapOffsets {f : Nat → Nat} (hf : Monotone f) {lo hi : Nat} {xs : List Lexeme}
    (h : Runs lo hi xs) : Runs (f lo) (f hi) (xs.map (Lexeme.mapOffsets f)) := by
  induction h with
  | nil h => exact .nil (hf h)
  | cons h₁ h₂ _ ih => exact .cons (hf h₁) (hf h₂) ih

end Lexeme

namespace Node

variable {f : Nat → Nat}

theorem closerStart_mapOffsets (opener : Node) (inner : List Node) :
    closerStart (opener.mapOffsets f) (mapOffsetsAll f inner) = f (closerStart opener inner) := by
  rw [closerStart, closerStart, mapOffsetsAll_eq, List.getLast?_map]
  cases inner.getLast? <;> simp

mutual

/-- The lexemes of a moved tree are those of the tree, moved. -/
theorem lexemes_mapOffsets (hf : Monotone f) (n : Node) :
    (n.mapOffsets f).lexemes = n.lexemes.map (Lexeme.mapOffsets f) := by
  obtain ⟨label, children⟩ := n
  have hkind : (label.mapOffsets f).kind = label.kind := rfl
  have hstart : (label.mapOffsets f).range.start = f label.range.start := rfl
  have hstop : (label.mapOffsets f).range.stop = f label.range.stop := Range.stop_mapOffsets hf _
  rw [mapOffsets, lexemes.eq_def, lexemes.eq_def]
  simp only [hkind, hstart, hstop]
  cases Form.ofKind? label.kind with
  | some form => rfl
  | none =>
    simp only
    split
    · exact templateLexemes_mapOffsets hf label.range.start label.range.stop children
    · cases children with
      | nil => rfl
      | cons n rest =>
        simp only [mapOffsetsAll]
        rw [lexemes_mapOffsets hf n, lexemesAll_mapOffsets hf rest, List.map_append]

theorem lexemesAll_mapOffsets (hf : Monotone f) (nodes : List Node) :
    lexemesAll (mapOffsetsAll f nodes) = (lexemesAll nodes).map (Lexeme.mapOffsets f) := by
  cases nodes with
  | nil => rfl
  | cons n rest =>
    rw [mapOffsetsAll, lexemesAll, lexemesAll, lexemes_mapOffsets hf n, lexemesAll_mapOffsets hf rest,
      List.map_append]

theorem templateLexemes_mapOffsets (hf : Monotone f) (start stop : Nat)
    (nodes : List Node) :
    templateLexemes (f start) (f stop) (mapOffsetsAll f nodes) =
      (templateLexemes start stop nodes).map (Lexeme.mapOffsets f) := by
  cases nodes with
  | nil => rfl
  | cons n rest =>
    obtain ⟨label, parts⟩ := n
    have hkind : (label.mapOffsets f).kind = label.kind := rfl
    rw [mapOffsetsAll, mapOffsets, templateLexemes.eq_def, templateLexemes.eq_def]
    simp only [hkind]
    split
    · cases parts with
      | nil => exact templateLexemes_mapOffsets hf start stop rest
      | cons opener inner =>
        simp only [mapOffsetsAll]
        rw [lexemesButLast_mapOffsets hf inner, closerStart_mapOffsets opener inner,
          templateLexemes_mapOffsets hf _ stop rest, List.map_cons, List.map_append,
          range_mapOffsets, Range.stop_mapOffsets hf]
        rfl
    · exact templateLexemes_mapOffsets hf start stop rest

theorem lexemesButLast_mapOffsets (hf : Monotone f) (nodes : List Node) :
    lexemesButLast (mapOffsetsAll f nodes) = (lexemesButLast nodes).map (Lexeme.mapOffsets f) := by
  cases nodes with
  | nil => rfl
  | cons n rest =>
    cases rest with
    | nil => rfl
    | cons m rest =>
      have hrest := lexemesButLast_mapOffsets hf (m :: rest)
      simp only [mapOffsetsAll] at hrest ⊢
      rw [lexemesButLast, lexemesButLast, lexemes_mapOffsets hf n, hrest, List.map_append]

end

/-- No lexeme loses its characters, and none gets any. -/
theorem pieces_mapOffsets (hf : StrictMono f) (tree : Node) :
    (tree.mapOffsets f).pieces = tree.pieces.map (Lexeme.mapOffsets f) := by
  rw [pieces, lexemes_mapOffsets hf.monotone, List.filter_map, pieces]
  refine congrArg _ (List.filter_congr fun x _ => ?_)
  simp [Lexeme.mapOffsets, hf.injective.eq_iff]

end Node

theorem Edit.monotone_moved (es : List Edit) : Monotone (Edit.moved es) := fun _ _ => moved_mono es

/-- Edits that each replace the margin of a token that leads its line. -/
def TokenStream.Reindents (s : TokenStream) (es : List Edit) : Prop :=
  ∀ e ∈ es, ∃ t < s.size, s.leads t = true ∧ e.range = (s.token t).marginRange ∧
    (e.content.getD []).Flat

namespace TokenStream

variable {source : Text} {tree : Node} {s : TokenStream} {es : List Edit}

/-- A token of a text and the same token of the text after edits. -/
structure Moves (es : List Edit) (t t' : Token) : Prop where
  kind_eq : t'.kind = t.kind
  text_eq : t'.text = t.text
  start_eq : t'.start = Edit.moved es t.start
  stop_eq : t'.stop = Edit.moved es t.stop
  startLine_eq : t'.startLine = t.startLine
  endLine_eq : t'.endLine = t.endLine

theorem isMargin_of_reindents (h : tree.WellFormed source) (hs : s.CutFrom source tree.pieces)
    (hl : s.Lined) (hes : s.Reindents es) : ∀ e ∈ es, Edit.IsMargin source e := by
  intro e he
  obtain ⟨t, ht, hlead, hrange, hflat⟩ := hes e he
  obtain ⟨u, m, v, hsource, hu, hm, hend, hmf, hv, -⟩ :=
    isMargin_of_leads h.clear hs hl ht hlead (show Flat [] from fun _ hc => by cases hc)
  exact ⟨u, m, v, hsource, by rw [hu, hrange]; rfl, by rw [hm, hrange]; rfl, hend, hmf, hv, hflat⟩

/-- The margin of a leading token reaches into no token. -/
theorem out_of_reindents (h : tree.WellFormed source) (hs : s.CutFrom source tree.pieces)
    (hl : s.Lined) (hes : s.Reindents es) {i : Nat} (hi : i < s.size) : ∀ e ∈ es,
    e.range.stop ≤ (s.token i).start ∨
      (s.token i).stop ≤ e.range.start ∧ (s.token i).stop < e.range.stop := by
  intro e he
  obtain ⟨t, ht, hlead, hrange, -⟩ := hes e he
  rw [hrange]
  change (s.token t).start ≤ _ ∨ _ ≤ (s.token t).lineStart ∧ _ < (s.token t).start
  rcases Nat.lt_or_ge i t with hit | hti
  · have h₁ := stop_lt_lineStart h.clear hs hl ht hlead hit
    have h₂ : (s.token t).lineStart ≤ (s.token t).start := Nat.sub_le _ _
    exact .inr (by omega)
  · exact .inl (hl.start_le_start hti hi)

/-- Each token survives edits of margins. -/
theorem exists_survives_token (h : tree.WellFormed source) (hs : s.CutFrom source tree.pieces)
    (hl : s.Lined) (hd : Edit.Descending es) (hes : s.Reindents es) {i : Nat} (hi : i < s.size) :
    ∃ a b a' b', source = a ++ (s.token i).text ++ b ∧ Text.size a = (s.token i).start ∧
      Text.size (a ++ (s.token i).text) = (s.token i).stop ∧
      (s.token i).margin = Lexeme.lastLine a ∧ ¬PartsPair a ((s.token i).text ++ b) ∧
      Edit.Survives es a (s.token i).text b a' b' := by
  obtain ⟨x, hx, hcut⟩ := hs.getElem_cut hi
  obtain ⟨a, b, hsource, hstart, hstop, hmargin⟩ := hcut.parts
  rw [← hcut.start_eq] at hstart
  rw [← hcut.stop_eq] at hstop
  have hp := not_partsPair h.clear hs hi hsource hstart hstop
  have hmargins := isMargin_of_reindents h hs hl hes
  rw [hsource] at hmargins
  obtain ⟨a', b', hsurv⟩ := Edit.exists_survives (x := a) (t := (s.token i).text) (y := b) hd hmargins
    fun e he => by
      rw [hstart, hstop]
      exact out_of_reindents h hs hl hes hi e he
  exact ⟨a, b, a', b', hsource, hstart, hstop, hmargin, hp, hsurv⟩

/-- A piece of the text is a piece of the edited text. -/
theorem pieces_moved (h : tree.WellFormed source) (hs : s.CutFrom source tree.pieces) (hl : s.Lined)
    (hd : Edit.Descending es) (hes : s.Reindents es) :
    (tree.moved es).pieces = tree.pieces.map (Lexeme.mapOffsets (Edit.moved es)) := by
  rw [Node.pieces, Node.moved, Node.lexemes_mapOffsets (Edit.monotone_moved es), List.filter_map,
    Node.pieces]
  refine congrArg _ (List.filter_congr fun x hx => ?_)
  by_cases hne : x.start = x.stop
  · simp [Lexeme.mapOffsets, hne]
  · obtain ⟨i, hi, hxi⟩ := List.getElem_of_mem (Node.mem_pieces_iff.2 ⟨hx, hne⟩)
    have hcut := hs.token_cut i hi
    rw [hxi] at hcut
    have his : i < s.size := hs.size_eq ▸ hi
    obtain ⟨a, b, a', b', -, hstart, hstop, -, -, hsurv⟩ := exists_survives_token h hs hl hd hes his
    have h₁ := hsurv.size_before
    have h₂ := hsurv.size_through
    have hpos := size_pos (text_ne_nil hs hl his)
    rw [hstart, hcut.start_eq] at h₁
    rw [hstop, hcut.stop_eq, size_append, h₁] at h₂
    have hne' : Edit.moved es x.start ≠ Edit.moved es x.stop := by omega
    simp [Lexeme.mapOffsets, hne, hne']

/-- Where a token of the edited text is cut from. -/
theorem exists_parts_moved (h : tree.WellFormed source) (hs : s.CutFrom source tree.pieces)
    (hl : s.Lined) (hd : Edit.Descending es) (hes : s.Reindents es) {fixed : Text}
    (happly : Edit.applyAll source es = .ok fixed) {i : Nat} (hi : i < s.size) :
    ∃ a' b', fixed = a' ++ (s.token i).text ++ b' ∧
      Text.size a' = Edit.moved es (s.token i).start ∧
      Text.size (a' ++ (s.token i).text) = Edit.moved es (s.token i).stop ∧
      ¬PartsPair a' ((s.token i).text ++ b') ∧
      (Lines.of fixed).lineOf (Text.size a') = (s.token i).startLine ∧
      (Lines.of fixed).lineOf (Text.size (a' ++ (s.token i).text)) = (s.token i).endLine := by
  obtain ⟨a, b, a', b', hsource, hstart, hstop, -, hp, hsurv⟩ :=
    exists_survives_token h hs hl hd hes hi
  obtain ⟨x, hx, hcut⟩ := hs.getElem_cut hi
  have hne := text_ne_nil hs hl hi
  have hfixed := hsurv.applied
  rw [← hsource, happly, Except.ok.injEq] at hfixed
  have hp' : ¬PartsPair a' ((s.token i).text ++ b') := fun hp' => hp (hsurv.pair_iff.1 hp')
  refine ⟨a', b', hfixed, ?_, ?_, hp', ?_, ?_⟩
  · rw [hsurv.size_before, hstart]
  · rw [hsurv.size_through, hstop]
  · rw [hfixed, List.append_assoc, lineOf_append_congr hsurv.terminators_eq hsurv.pair_iff,
      ← List.append_assoc, ← hsource, hstart, hcut.startLine_eq, hcut.start_eq]
  · have hterm : terminators (a' ++ (s.token i).text) = terminators (a ++ (s.token i).text) := by
      rw [partsPair_append_right hne] at hp hp'
      rw [terminators_append hp, terminators_append hp', hsurv.terminators_eq]
    have hpair : PartsPair (a' ++ (s.token i).text) b' ↔ PartsPair (a ++ (s.token i).text) b := by
      rw [partsPair_append_left hne, partsPair_append_left hne, PartsPair, PartsPair, hsurv.head_iff]
    rw [hfixed, lineOf_append_congr hterm hpair, ← hsource, hstop, hcut.endLine_eq, hcut.stop_eq]

/-- Edits of margins can be carried out, and they leave the same terminators. -/
theorem exists_applyAll (h : tree.WellFormed source) (hs : s.CutFrom source tree.pieces)
    (hl : s.Lined) (hd : Edit.Descending es) (hes : s.Reindents es) :
    ∃ fixed, Edit.applyAll source es = .ok fixed ∧ terminators fixed = terminators source := by
  have hmargins := isMargin_of_reindents h hs hl hes
  obtain ⟨fixed, z, hwhole⟩ := Edit.exists_survives (x := source) (t := []) (y := []) hd
    (by simpa using hmargins) fun e he => by
      obtain ⟨u, m, v, hsource, -, hstop, -⟩ := hmargins e he
      refine .inl ?_
      rw [← hstop, hsource, size_append _ v]
      omega
  obtain rfl := hwhole.nil_of_nil rfl
  exact ⟨fixed, by simpa only [List.append_nil] using hwhole.applied, hwhole.terminators_eq⟩

/-- A token that is cut from the place that its lexeme has moved to is the same token. -/
theorem Moves.of_cutFrom {fixed a b : Text} {x : Lexeme} {t t' : Token} (hcut : t.CutFrom source x)
    (hcut' : t'.CutFrom fixed (x.mapOffsets (Edit.moved es))) (hfixed : fixed = a ++ t.text ++ b)
    (hstart : Text.size a = Edit.moved es t.start)
    (hstop : Text.size (a ++ t.text) = Edit.moved es t.stop)
    (hfirst : (Lines.of fixed).lineOf (Text.size a) = t.startLine)
    (hlast : (Lines.of fixed).lineOf (Text.size (a ++ t.text)) = t.endLine) : Moves es t t' := by
  obtain ⟨c, d, hfixed', hstart', hstop', -⟩ := hcut'.parts
  rw [hcut.start_eq] at hstart
  rw [hcut.stop_eq] at hstop
  have htext : t'.text = t.text := by
    rw [hfixed, List.append_assoc, List.append_assoc] at hfixed'
    obtain ⟨rfl, hrest⟩ := append_inj_of_size hfixed' (by rw [hstart, hstart']; rfl)
    rw [size_append, hstart] at hstop
    rw [size_append, hstart] at hstop'
    exact (append_inj_of_size hrest (by
      simp only [Lexeme.mapOffsets] at hstop'
      omega)).1.symm
  exact {
    kind_eq := by rw [hcut'.kind_eq, hcut.kind_eq, htext]; rfl
    text_eq := htext
    start_eq := by rw [hcut'.start_eq, hcut.start_eq]; rfl
    stop_eq := by rw [hcut'.stop_eq, hcut.stop_eq]; rfl
    startLine_eq := by rw [hcut'.startLine_eq, ← hfirst, hstart]; rfl
    endLine_eq := by rw [hcut'.endLine_eq, ← hlast, hstop]; rfl }

/-- The tokens of the edited text are those of the text, moved. -/
theorem exists_moved (h : tree.WellFormed source) (hs : s.CutFrom source tree.pieces) (hl : s.Lined)
    (hd : Edit.Descending es) (hes : s.Reindents es) {fixed : Text}
    (happly : Edit.applyAll source es = .ok fixed) :
    ∃ s', ofTree fixed (tree.moved es) = .ok s' ∧ s'.CutFrom fixed (tree.moved es).pieces ∧
      s'.Lined ∧ s'.size = s.size ∧ ∀ i < s.size, Moves es (s.token i) (s'.token i) := by
  have hpieces := pieces_moved h hs hl hd hes
  have hparts := fun i hi => exists_parts_moved (i := i) h hs hl hd hes happly hi
  have hruns := h.runs.mapOffsets (Edit.monotone_moved es)
  rw [← Node.lexemes_mapOffsets (Edit.monotone_moved es), ← Node.moved] at hruns
  have hcuts : ∀ x ∈ (tree.moved es).pieces, ∃ a t b, fixed = a ++ t ++ b ∧
      Text.size a = x.start ∧ Text.size (a ++ t) = x.stop := by
    intro x hx
    rw [hpieces] at hx
    obtain ⟨y, hy, rfl⟩ := List.mem_map.1 hx
    obtain ⟨i, hi, rfl⟩ := List.getElem_of_mem hy
    have hcut := hs.token_cut i hi
    obtain ⟨a', b', hfixed, hstart, hstop, -⟩ := hparts i (hs.size_eq ▸ hi)
    rw [hcut.start_eq] at hstart
    rw [hcut.stop_eq] at hstop
    exact ⟨a', _, b', hfixed, hstart, hstop⟩
  obtain ⟨s', hs', hcut'⟩ := exists_ofTree hruns hcuts
  have hsize : s'.size = s.size := by rw [hcut'.size_eq, hs.size_eq, hpieces, List.length_map]
  refine ⟨s', hs', hcut', hcut'.lined (hruns.pairwise.filter _) fun x hx => ?_, hsize, fun i hi => ?_⟩
  · obtain ⟨hx, hne⟩ := Node.mem_pieces_iff.1 hx
    have := (hruns.mem hx).2.1
    omega
  · obtain ⟨a', b', hfixed, hstart, hstop, -, hfirst, hlast⟩ := hparts i hi
    have hi' : i < tree.pieces.length := hs.size_eq ▸ hi
    have hcut'' := hcut'.token_cut i (by rwa [hpieces, List.length_map])
    simp only [hpieces, List.getElem_map] at hcut''
    exact .of_cutFrom (hs.token_cut i hi') hcut'' hfixed hstart hstop hfirst hlast

end TokenStream

end Indentation
