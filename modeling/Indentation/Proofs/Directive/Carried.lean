import Indentation.Directive.Suppression
import Indentation.Proofs.Token.Margins
import Indentation.Proofs.Token.Tracks
import Mathlib.Data.List.Forall2

/-!
# Suppression in a moved text

Regions begin and end at comments, at the ends of lines or at the end of the text.  In a text that has
been moved each of these is on the same side as it was of every point that has moved along, so the same
points are suppressed.  The starts of tokens are such points.
-/

namespace Indentation

open Text Lines

namespace TokenStream

variable {source : Text} {xs : List Lexeme} {s : TokenStream} (hs : s.CutFrom source xs)
include hs

variable (hl : s.Lined)
include hl

theorem start_lt_size {i : Nat} (hi : i < s.size) : (s.token i).start < Text.size source := by
  obtain ⟨x, -, hcut⟩ := hs.getElem_cut hi
  obtain ⟨a, b, hsource, -, hstop, -⟩ := hcut.parts
  have := hl.start_lt_stop i hi
  rw [hcut.stop_eq, ← hstop] at this
  rw [hsource, size_append]
  omega

/-- Tokens behind the start of a line are those of the line and those of later ones. -/
theorem lineStart_le_start_iff {i line : Nat} (hi : i < s.size) (hline : 1 ≤ line) :
    (Lines.of source).lineStart source line ≤ (s.token i).start ↔ line ≤ (s.token i).startLine := by
  rw [lineStart_le_iff hline (start_lt_size hs hl hi), hs.lineOf_start hi]

omit hl in
/-- Tokens behind the end of a line are those of later lines. -/
theorem lineEnd_lt_start_iff (h : Lexeme.Clear source xs) {i line : Nat} (hi : i < s.size)
    (hline : 1 ≤ line) :
    (Lines.of source).lineEnd source line + 1 ≤ (s.token i).start ↔ line < (s.token i).startLine := by
  obtain ⟨x, -, hcut⟩ := hs.getElem_cut hi
  obtain ⟨a, b, hsource, hstart, hstop, -⟩ := hcut.parts
  rw [← hcut.start_eq] at hstart
  have hp := not_partsPair h hs hi hsource hstart (hstop.trans hcut.stop_eq.symm)
  rw [List.append_assoc] at hsource
  have hiff := le_lineEnd_iff hline hp
  rw [← hsource, hstart, hs.lineOf_start hi] at hiff
  omega

end TokenStream

namespace Suppression

/-- Two offsets, each in its text, on the same side of all points that correspond to each other. -/
def SameSide (R : Nat → Nat → Prop) (p p' : Nat) : Prop := ∀ q q', R q q' → (p ≤ q ↔ p' ≤ q')

/-- Two regions that take in the same points. -/
structure SameRegion (R : Nat → Nat → Prop) (r r' : Region) : Prop where
  rule_eq : r.rule = r'.rule
  start : SameSide R r.start r'.start
  stop : SameSide R r.stop r'.stop

/-- Two readings of directives that points cannot tell apart. -/
structure SameState (R : Nat → Nat → Prop) (st st' : State) : Prop where
  since : List.Forall₂ (fun e e' => e.1 = e'.1 ∧ SameSide R e.2 e'.2) st.since st'.since
  regions : List.Forall₂ (SameRegion R) st.regions st'.regions

/-- Two texts whose lines hold the same points. -/
structure SameLines (R : Nat → Nat → Prop) (source fixed : Text) : Prop where
  lineStart : ∀ line, 1 ≤ line → SameSide R ((Lines.of source).lineStart source line)
    ((Lines.of fixed).lineStart fixed line)
  lineEnd : ∀ line, 1 ≤ line → SameSide R ((Lines.of source).lineEnd source line + 1)
    ((Lines.of fixed).lineEnd fixed line + 1)
  size : SameSide R (Text.size source + 1) (Text.size fixed + 1)

variable {R : Nat → Nat → Prop} {st st' : State}

theorem lookup_of_forall₂ {since since' : List (Text × Nat)} (rule : Text)
    (h : List.Forall₂ (fun e e' => e.1 = e'.1 ∧ SameSide R e.2 e'.2) since since') :
    since.lookup rule = none ∧ since'.lookup rule = none ∨
      ∃ p p', since.lookup rule = some p ∧ since'.lookup rule = some p' ∧ SameSide R p p' := by
  induction h with
  | nil => exact .inl ⟨rfl, rfl⟩
  | @cons e e' since since' he _ ih =>
    obtain ⟨name, p⟩ := e
    obtain ⟨name', p'⟩ := e'
    obtain ⟨rfl, hside⟩ : name = name' ∧ SameSide R p p' := he
    rw [List.lookup_cons, List.lookup_cons]
    by_cases hrule : (rule == name) = true
    · simp only [hrule]
      exact .inr ⟨p, p', rfl, rfl, hside⟩
    · simp only [hrule]
      exact ih

theorem SameState.disable (h : SameState R st st') {p p' : Nat} (hp : SameSide R p p')
    (rule : Text) : SameState R (st.disable p rule) (st'.disable p' rule) := by
  rw [State.disable, State.disable]
  rcases lookup_of_forall₂ rule h.since with ⟨h₁, h₂⟩ | ⟨q, q', h₁, h₂, -⟩
  · simp only [h₁, h₂, Option.isSome_none, Bool.false_eq_true, if_false]
    exact ⟨List.rel_append h.since (.cons ⟨rfl, hp⟩ .nil), h.regions⟩
  · simp only [h₁, h₂, Option.isSome_some, if_true]
    exact h

theorem SameState.enable (h : SameState R st st') {p p' : Nat} (hp : SameSide R p p')
    (rule : Text) : SameState R (st.enable p rule) (st'.enable p' rule) := by
  rw [State.enable, State.enable]
  rcases lookup_of_forall₂ rule h.since with ⟨h₁, h₂⟩ | ⟨q, q', h₁, h₂, hq⟩
  · rw [h₁, h₂]
    exact h
  · rw [h₁, h₂]
    refine ⟨List.rel_filter (fun e e' he => ?_) h.since,
      List.rel_append h.regions (.cons ⟨rfl, hq, hp⟩ .nil)⟩
    simp only [he.1]

theorem SameState.suppress (h : SameState R st st') {p p' q q' : Nat} (hp : SameSide R p p')
    (hq : SameSide R q q') (rule : Text) :
    SameState R (st.suppress p q rule) (st'.suppress p' q' rule) :=
  ⟨h.since, List.rel_append h.regions (.cons ⟨rfl, hp, hq⟩ .nil)⟩

theorem SameState.names_eq (h : SameState R st st') :
    st.since.map Prod.fst = st'.since.map Prod.fst := by
  rw [← List.forall₂_eq_eq_eq]
  exact List.rel_map (fun _ _ he => he.1) h.since

section

variable {source fixed : Text} (hlines : SameLines R source fixed)
include hlines

theorem SameState.follow (h : SameState R st st') {p p' : Nat} (hp : SameSide R p p')
    (hline : (Lines.of fixed).lineOf p' = (Lines.of source).lineOf p) (d : Directive) :
    SameState R (st.follow source (.of source) p d) (st'.follow fixed (.of fixed) p' d) := by
  have hsuppress : ∀ line, 1 ≤ line → SameState R
      (d.rules.foldl (State.suppress ((Lines.of source).lineStart source line)
        ((Lines.of source).lineEnd source line + 1)) st)
      (d.rules.foldl (State.suppress ((Lines.of fixed).lineStart fixed line)
        ((Lines.of fixed).lineEnd fixed line + 1)) st') := fun line hone =>
    List.foldl_rel h fun rule _ _ _ h =>
      h.suppress (hlines.lineStart line hone) (hlines.lineEnd line hone) rule
  have hone := one_le_lineOf source p
  rw [State.follow, State.follow]
  cases d.action with
  | disable => exact List.foldl_rel h fun rule _ _ _ h => h.disable hp rule
  | enable =>
    simp only [← h.names_eq]
    exact List.foldl_rel h fun rule _ _ _ h => h.enable hp rule
  | disableLine =>
    simp only [hline]
    exact hsuppress _ hone
  | disableNextLine =>
    simp only [hline]
    exact hsuppress _ (Nat.le_add_left 1 _)

variable {f : Nat → Nat} {s s' : TokenStream} (hparallels : s.Parallels f s')
  (hsource : s.source = source) (hsource' : s'.source = fixed)
  (hstart : ∀ i < s.size, SameSide R (s.token i).start (s'.token i).start)
  (hline : ∀ i < s.size, (Lines.of fixed).lineOf (s'.token i).start =
    (Lines.of source).lineOf (s.token i).start)
include hparallels hsource hsource' hstart hline

theorem SameState.read (h : SameState R st st') {i : Nat} (hi : i < s.size) :
    SameState R (st.read s (.of source) i) (st'.read s' (.of fixed) i) := by
  rw [State.read, State.read, hparallels.directive_eq, hsource, hsource']
  cases Directive.ofComment? (s.token i).kind (s.token i).text with
  | none => exact h
  | some d => exact h.follow hlines (hstart i hi) (hline i hi) d

/-- The regions of a moved text take in the points that they took in. -/
theorem sameRegions_ofTokens :
    List.Forall₂ (SameRegion R) (ofTokens s).regions (ofTokens s').regions := by
  have hlast : SameState R (s.commentIds.foldl (State.read s (.of source)) ⟨[], []⟩)
      (s.commentIds.foldl (State.read s' (.of fixed)) ⟨[], []⟩) := by
    refine List.foldl_rel ⟨.nil, .nil⟩ fun i hi _ _ h => ?_
    exact h.read hlines hparallels hsource hsource' hstart hline
      (List.mem_range.1 (List.mem_filter.1 hi).1)
  rw [ofTokens, ofTokens, hsource, hsource', hparallels.commentIds_eq]
  refine List.rel_append hlast.regions (List.rel_map (fun e e' he => ?_) hlast.since)
  exact ⟨he.1, he.2, hlines.size⟩

/-- Points that correspond to each other are suppressed alike. -/
theorem holds_eq_of_point (rule : Text) {q q' : Nat} (hq : R q q') :
    (ofTokens s').holds rule q' = (ofTokens s).holds rule q := by
  have hregions := sameRegions_ofTokens hlines hparallels hsource hsource' hstart hline
  rw [holds, holds]
  generalize (ofTokens s).regions = rs at hregions ⊢
  generalize (ofTokens s').regions = rs' at hregions ⊢
  induction hregions with
  | nil => rfl
  | @cons r r' rs rs' hr _ ih =>
    have hcontains : r'.contains q' = r.contains q := by
      have h₁ := hr.start q q' hq
      have h₂ := hr.stop q q' hq
      rw [Region.contains, Region.contains, Bool.eq_iff_iff]
      simp only [Bool.and_eq_true, decide_eq_true_eq]
      omega
    rw [List.any_cons, List.any_cons, ih, hcontains, hr.rule_eq]

end

/-! ## The starts of tokens -/

/-- The starts of tokens that stand for each other. -/
def Starts (s s' : TokenStream) (q q' : Nat) : Prop :=
  ∃ i < s.size, q = (s.token i).start ∧ q' = (s'.token i).start

variable {f : Nat → Nat} {source fixed : Text} {xs xs' : List Lexeme} {s s' : TokenStream}
  (hparallels : s.Parallels f s') (hs : s.CutFrom source xs) (hl : s.Lined)
  (hclear : Lexeme.Clear source xs) (hs' : s'.CutFrom fixed xs') (hl' : s'.Lined)
  (hclear' : Lexeme.Clear fixed xs')
include hparallels hs hl hs' hl'

omit hs hs' in
theorem sameSide_start {i : Nat} (hi : i < s.size) :
    SameSide (Starts s s') (s.token i).start (s'.token i).start := by
  rintro _ _ ⟨j, hj, rfl, rfl⟩
  have hi' : i < s'.size := hparallels.size_eq ▸ hi
  have hj' : j < s'.size := hparallels.size_eq ▸ hj
  constructor
  · intro hle
    refine hl'.start_le_start (Nat.le_of_not_lt fun hlt => ?_) hj'
    have := hl.start_lt_start hlt hi
    omega
  · intro hle
    refine hl.start_le_start (Nat.le_of_not_lt fun hlt => ?_) hj
    have := hl'.start_lt_start hlt hi'
    omega

include hclear hclear' in
theorem sameLines_starts : SameLines (Starts s s') source fixed where
  lineStart line hline := by
    rintro _ _ ⟨i, hi, rfl, rfl⟩
    rw [TokenStream.lineStart_le_start_iff hs hl hi hline,
      TokenStream.lineStart_le_start_iff hs' hl' (hparallels.size_eq ▸ hi) hline,
      hparallels.startLine_eq]
  lineEnd line hline := by
    rintro _ _ ⟨i, hi, rfl, rfl⟩
    rw [TokenStream.lineEnd_lt_start_iff hs hclear hi hline,
      TokenStream.lineEnd_lt_start_iff hs' hclear' (hparallels.size_eq ▸ hi) hline,
      hparallels.startLine_eq]
  size := by
    rintro _ _ ⟨i, hi, rfl, rfl⟩
    have := TokenStream.start_lt_size hs hl hi
    have := TokenStream.start_lt_size hs' hl' (hparallels.size_eq ▸ hi)
    omega

include hclear hclear' in
/-- The same tokens are suppressed in a moved text. -/
theorem holds_eq (rule : Text) {i : Nat} (hi : i < s.size) :
    (ofTokens s').holds rule (s'.token i).start = (ofTokens s).holds rule (s.token i).start := by
  refine holds_eq_of_point (sameLines_starts hparallels hs hl hclear hs' hl' hclear') hparallels
    hs.source_eq hs'.source_eq (fun j hj => sameSide_start hparallels hl hl' hj) (fun j hj => ?_) rule
    ⟨i, hi, rfl, rfl⟩
  rw [hs.lineOf_start hj, hs'.lineOf_start (hparallels.size_eq ▸ hj),
    hparallels.startLine_eq]

end Suppression

end Indentation
