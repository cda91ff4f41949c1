import Indentation.Proofs.Text.LineEnds
import Indentation.Proofs.Token.Lexemes
import Indentation.Token.Stream

/-!
# Trees of a text

What a parser is relied on for: the tree of a text without errors is nested, its ranges cut the text
between characters, and its lexemes begin and end with something that shows.  The text of an element
is the exception.  It may begin and end with white space, but it goes on from where the lexeme before
it stops, and no comment shares the line that it ends on.
-/

namespace Indentation

open Text

namespace Lexeme

/-- What a text has before a lexeme, in it and behind it. -/
def parts? (source : Text) (x : Lexeme) : Option (Text × Text × Text) := do
  let (upTo, behind) ← split? source x.stop
  let (before, text) ← split? upTo x.start
  return (before, text, behind)

theorem parts?_eq_some_iff {source a t b : Text} {x : Lexeme} :
    x.parts? source = some (a, t, b) ↔
      source = a ++ t ++ b ∧ size a = x.start ∧ size (a ++ t) = x.stop := by
  simp only [parts?, Option.bind_eq_bind, Option.bind_eq_some_iff, Option.pure_def,
    Option.some.injEq, Prod.exists, Prod.mk.injEq, split?_eq_some_iff]
  constructor
  · rintro ⟨u, w, ⟨rfl, hstop⟩, a', t', ⟨rfl, hstart⟩, rfl, rfl, rfl⟩
    exact ⟨rfl, hstart, hstop⟩
  · rintro ⟨rfl, hstart, hstop⟩
    exact ⟨_, _, ⟨rfl, hstop⟩, _, _, ⟨rfl, hstart⟩, rfl, rfl, rfl⟩

/-- Lexemes that begin and end with something that shows, the text of an element apart. -/
structure Shown (source : Text) (xs : List Lexeme) : Prop where
  /-- No lexeme starts between CR and LF. -/
  unparted : ∀ x ∈ xs, ∀ p ∈ x.parts? source, ¬PartsPair p.1 (p.2.1 ++ p.2.2)
  begins : ∀ x ∈ xs, x.form ≠ .jsxText → ∀ p ∈ x.parts? source, ∀ c ∈ p.2.1.head?, isBlank c = false
  /-- Blanks may end a lexeme of one line. -/
  ends : ∀ x ∈ xs, x.form ≠ .jsxText → ∀ p ∈ x.parts? source,
    p.2.1.Flat ∨ ∀ c ∈ p.2.1.getLast?, isBlank c = false
  uncommented : ∀ x ∈ xs, x.form = .jsxText → ∀ y ∈ xs, y.form = .comment →
    x.stop ≤ y.start → (Lines.of source).lineOf x.stop ≠ (Lines.of source).lineOf y.start

/-- The text of an element goes on from the lexeme before it.  Were there a margin between a CR and an
LF that it begins with, the edit of the margin could make one terminator of the two. -/
def Contiguous (source : Text) (xs : List Lexeme) : Prop :=
  ∀ x ∈ xs, x.form = .jsxText → ∀ p ∈ x.parts? source,
    p.2.1.head? = some '\n' → ∃ y ∈ xs, y.stop = x.start

/-- Lexemes that keep clear of the white space of a text. -/
structure Clear (source : Text) (xs : List Lexeme) : Prop extends Shown source xs where
  contiguous : Contiguous source xs

theorem isBlank_of_all {o : Option Char} (h : o.all (fun c => !isBlank c) = true) :
    ∀ c ∈ o, isBlank c = false := by
  intro c hc
  rw [Option.mem_def.1 hc] at h
  simpa using h

/-- What lexemes begin and end with, in a form that can be decided. -/
theorem Shown.of_all {source : Text} {xs : List Lexeme}
    (hunparted : ∀ x ∈ xs, ∀ p ∈ x.parts? source, ¬PartsPair p.1 (p.2.1 ++ p.2.2))
    (hbegins : ∀ x ∈ xs, x.form ≠ .jsxText → ∀ p ∈ x.parts? source,
      p.2.1.head?.all (fun c => !isBlank c) = true)
    (hends : ∀ x ∈ xs, x.form ≠ .jsxText → ∀ p ∈ x.parts? source,
      p.2.1.getLast?.all (fun c => !isBlank c) = true)
    (huncommented : ∀ x ∈ xs, x.form = .jsxText → ∀ y ∈ xs, y.form ≠ .comment) : Shown source xs where
  unparted := hunparted
  begins x hx hform p hp := isBlank_of_all (hbegins x hx hform p hp)
  ends x hx hform p hp := .inr (isBlank_of_all (hends x hx hform p hp))
  uncommented x hx hjsx y hy hcomment := absurd hcomment (huncommented x hx hjsx y hy)

/-- Lexemes without line ends keep clear of white space if none begins with it. -/
theorem Clear.of_flat {source : Text} {xs : List Lexeme}
    (hunparted : ∀ x ∈ xs, ∀ p ∈ x.parts? source, ¬PartsPair p.1 (p.2.1 ++ p.2.2))
    (hform : ∀ x ∈ xs, x.form ≠ .jsxText)
    (hbegins : ∀ x ∈ xs, ∀ p ∈ x.parts? source, p.2.1.head?.all (fun c => !isBlank c) = true)
    (hflat : ∀ x ∈ xs, ∀ p ∈ x.parts? source, p.2.1.Flat) : Clear source xs where
  unparted := hunparted
  begins x hx _ p hp := isBlank_of_all (hbegins x hx p hp)
  ends x hx _ p hp := .inl (hflat x hx p hp)
  uncommented x hx hjsx := absurd hjsx (hform x hx)
  contiguous x hx hjsx := absurd hjsx (hform x hx)

end Lexeme

namespace Node

/-- The lexemes that have a character. -/
def pieces (tree : Node) : List Lexeme := tree.lexemes.filter fun x => x.start ≠ x.stop

theorem mem_pieces_iff {tree : Node} {x : Lexeme} :
    x ∈ tree.pieces ↔ x ∈ tree.lexemes ∧ x.start ≠ x.stop := by
  simp [pieces]

/-- A nested tree whose ranges lie between the characters of a text. -/
structure Fits (source : Text) (tree : Node) : Prop extends tree.Nested where
  substituted : tree.Substituted
  cuts : ∀ c ∈ tree.preorder, source.Cuts c.range.start ∧ source.Cuts c.range.stop

/-- A tree that fits a text, with lexemes that keep clear of its white space. -/
structure WellFormed (source : Text) (tree : Node) : Prop extends tree.Fits source where
  clear : Lexeme.Clear source tree.pieces

/-- A nested tree that cuts a text between its characters, into lexemes that begin and end with
something that shows. -/
structure Legible (source : Text) (tree : Node) : Prop extends tree.Nested where
  cuts : ∀ c ∈ tree.preorder, source.Cuts c.range.start ∧ source.Cuts c.range.stop
  shown : Lexeme.Shown source tree.pieces

variable {source : Text} {tree : Node}

/-- What else a pass relies on: both ends of each substitution, and a lexeme in front of the text of an
element that begins with an LF. -/
theorem Legible.wellFormed (h : tree.Legible source) (hsub : tree.Substituted)
    (hcont : Lexeme.Contiguous source tree.pieces) : tree.WellFormed source where
  toNested := h.toNested
  substituted := hsub
  cuts := h.cuts
  clear := ⟨h.shown, hcont⟩

theorem WellFormed.legible (h : tree.WellFormed source) : tree.Legible source where
  toNested := h.toNested
  cuts := h.cuts
  shown := h.clear.toShown

theorem mem_preorder_self (tree : Node) : Cursor.root tree ∈ tree.preorder :=
  mem_preorder_iff.2 (.refl _)

theorem Fits.runs (h : tree.Fits source) :
    Lexeme.Runs tree.range.start tree.range.stop tree.lexemes :=
  runs_lexemes h.toNested h.substituted tree.mem_preorder_self

/-- A text falls apart around each lexeme. -/
theorem Fits.exists_parts (h : tree.Fits source) {x : Lexeme} (hx : x ∈ tree.lexemes) :
    ∃ a t b, source = a ++ t ++ b ∧ Text.size a = x.start ∧ Text.size (a ++ t) = x.stop := by
  obtain ⟨h₁, h₂⟩ := ends_of_mem_lexemes h.substituted h.cuts tree.mem_preorder_self hx
  obtain ⟨a, r, rfl, hstart⟩ := cuts_iff.1 h₁
  obtain ⟨u, b, heq, hstop⟩ := cuts_iff.1 h₂
  obtain ⟨t, rfl, rfl⟩ := exists_between heq (by
    rw [hstart, hstop]
    exact (h.runs.mem hx).2.1)
  exact ⟨a, t, b, heq, hstart, hstop⟩

end Node

end Indentation
