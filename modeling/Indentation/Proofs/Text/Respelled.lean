import Indentation.Layout.Margin
import Indentation.Proofs.Text.LineEnds
import Indentation.Text.Blank

/-!
# Texts that spell words differently

A word of a text may be spelled in another way of the same length.  The text then has other characters in
the word, but no other lines, and whatever does not look into words reads the same.  A cut of the text
that is not inside a word is a cut of the other text.
-/

namespace Indentation

namespace Text

/-- A character of a word: no white space, and no parenthesis or semicolon. -/
def isWordChar (c : Char) : Bool := !isBlank c && !(c = '(' || c = ')' || c = ';')

def IsWord (t : Text) : Prop := t ≠ [] ∧ ∀ c ∈ t, isWordChar c = true

/-- Two texts from an offset on that are the same but for words.  Words that stand for each other have
as many bytes and as many characters, and stand where `words` says. -/
inductive Respells (words : Nat → Nat → Prop) : Nat → Text → Text → Prop where
  | nil {o : Nat} : Respells words o [] []
  | keep {o : Nat} {c : Char} {t t' : Text} :
    Respells words (o + c.utf8Size) t t' → Respells words o (c :: t) (c :: t')
  | word {o : Nat} {w w' t t' : Text} :
    words o (o + size w) → IsWord w → IsWord w' → size w' = size w → w'.length = w.length →
      Respells words (o + size w) t t' → Respells words o (w ++ t) (w' ++ t')

theorem isWordChar_of_isBlank {c : Char} (h : isBlank c = true) : isWordChar c = false := by
  rw [isWordChar, h]
  rfl

theorem isWordChar_of_isTerminator {c : Char} (h : Lexeme.isTerminator c = true) :
    isWordChar c = false := by
  rcases isTerminator_iff.1 h with rfl | rfl <;> rfl

theorem IsWord.flat {w : Text} (h : IsWord w) : w.Flat := by
  intro c hc
  by_contra ht
  rw [Bool.not_eq_false] at ht
  have := h.2 c hc
  rw [isWordChar_of_isTerminator ht] at this
  cases this

/-! ## Words made alike -/

def blurChar (c : Char) : Char := if isWordChar c then 'x' else c

/-- A text with all characters of words made alike. -/
def blur (t : Text) : Text := t.map blurChar

/-- What holds of no character of a word does not look into words. -/
theorem apply_blurChar {p : Char → Bool} (h : ∀ c, isWordChar c = true → p c = false) (c : Char) :
    p (blurChar c) = p c := by
  rw [blurChar]
  split
  · next hc => rw [h c hc, h 'x' (by decide)]
  · rfl

theorem blurChar_of_not {c : Char} (h : isWordChar c = false) : blurChar c = c := by
  rw [blurChar, h]
  rfl

theorem isBlank_blurChar (c : Char) : isBlank (blurChar c) = isBlank c := by
  refine apply_blurChar (fun c hc => ?_) c
  by_contra hblank
  rw [isWordChar_of_isBlank (by simpa using hblank)] at hc
  cases hc

theorem isTerminator_blurChar (c : Char) :
    Lexeme.isTerminator (blurChar c) = Lexeme.isTerminator c := by
  refine apply_blurChar (fun c hc => ?_) c
  by_contra ht
  rw [isWordChar_of_isTerminator (by simpa using ht)] at hc
  cases hc

theorem blurChar_eq_iff {c d : Char} (h : isWordChar d = false) : blurChar c = d ↔ c = d := by
  have hne := apply_blurChar (p := (· == d)) (fun c hc => by
    rw [beq_eq_false_iff_ne]
    rintro rfl
    rw [h] at hc
    cases hc) c
  rw [← beq_iff_eq, hne, beq_iff_eq]

theorem blur_append (a b : Text) : blur (a ++ b) = blur a ++ blur b := List.map_append

theorem blur_word {w : Text} (h : IsWord w) : blur w = List.replicate w.length 'x' := by
  rw [blur, List.map_congr_left (g := fun _ => 'x') fun c hc => by rw [blurChar, h.2 c hc]; rfl]
  exact List.map_const' ..

theorem takeWhile_blur {p : Char → Bool} (h : ∀ c, p (blurChar c) = p c) (t : Text) :
    (blur t).takeWhile p = blur (t.takeWhile p) := by
  rw [blur, List.takeWhile_map, Function.comp_def, funext h, blur]

theorem lastLine_blur (t : Text) : Lexeme.lastLine (blur t) = blur (Lexeme.lastLine t) := by
  have hnot : ∀ c, (!Lexeme.isTerminator (blurChar c)) = !Lexeme.isTerminator c := fun c => by
    rw [isTerminator_blurChar]
  rw [Lexeme.lastLine, Lexeme.lastLine, blur, ← List.map_reverse, ← blur, takeWhile_blur hnot, blur, blur,
    List.map_reverse]

theorem all_isBlank_blur (t : Text) : (blur t).all isBlank = t.all isBlank := by
  rw [blur, List.all_map, Function.comp_def, funext isBlank_blurChar]

theorem measure_blur (t : Text) : Margin.measure (blur t) = Margin.measure t := by
  have hspace : ∀ c : Char, (c = ' ' || c = '\t') = true → isWordChar c = false := by
    intro c hc
    simp only [Bool.or_eq_true, decide_eq_true_eq] at hc
    rcases hc with rfl | rfl <;> rfl
  have hlead : (blur t).takeWhile (fun c => c = ' ' || c = '\t') =
      t.takeWhile fun c => c = ' ' || c = '\t' := by
    rw [takeWhile_blur fun c => apply_blurChar (fun d hd => ?_) c]
    · refine (List.map_congr_left fun c hc => ?_).trans (List.map_id _)
      have hc' : (c = ' ' || c = '\t') = true :=
        List.mem_takeWhile_imp (p := fun c => c = ' ' || c = '\t') hc
      exact blurChar_of_not (hspace c hc')
    · by_contra hne
      rw [hspace d (by rwa [Bool.not_eq_false] at hne)] at hd
      cases hd
  rw [Margin.measure, Margin.measure, hlead]

theorem blur_eq_singleton {c : Char} (h : isWordChar c = false) {t : Text} :
    blur t = [c] ↔ t = [c] := by
  rw [blur, List.map_eq_singleton_iff]
  constructor
  · rintro ⟨d, rfl, hd⟩
    rw [(blurChar_eq_iff h).1 hd]
  · rintro rfl
    exact ⟨c, rfl, blurChar_of_not h⟩

theorem head?_blur_eq {c : Char} (h : isWordChar c = false) {t : Text} :
    (blur t).head? = some c ↔ t.head? = some c := by
  cases t with
  | nil => simp [blur]
  | cons d t => simp [blur, blurChar_eq_iff h]

theorem terminatorSize_blur (t : Text) : Lines.terminatorSize (blur t) = Lines.terminatorSize t := by
  have hlf : isWordChar '\n' = false := by decide
  have hcr : isWordChar '\r' = false := by decide
  have hsize : ∀ t : Text, Lines.terminatorSize t =
      if t.reverse.head? = some '\n' then
        if t.reverse.tail.head? = some '\r' then 2 else 1
      else if t.reverse.head? = some '\r' then 1 else 0 := by
    intro t
    rw [Lines.terminatorSize]
    rcases t.reverse with _ | ⟨c, r⟩
    · rfl
    by_cases hc : c = '\n'
    · subst hc
      rcases r with _ | ⟨d, r⟩
      · rfl
      · by_cases hd : d = '\r'
        · subst hd
          rfl
        · simp [hd]
    · by_cases hc' : c = '\r'
      · subst hc'
        rfl
      · simp [hc, hc']
  rw [hsize, hsize, blur, ← List.map_reverse, ← List.map_tail, ← blur, ← blur]
  simp only [head?_blur_eq hlf, head?_blur_eq hcr]

namespace Respells

variable {words : Nat → Nat → Prop} {o : Nat} {t t' : Text} (h : Respells words o t t')
include h

theorem size_eq : size t' = size t := by
  induction h with
  | nil => rfl
  | keep _ ih => rw [size_cons, size_cons, ih]
  | word _ _ _ hsize _ _ ih => rw [size_append, size_append, hsize, ih]

/-- The texts differ in words only. -/
theorem blur_eq : blur t' = blur t := by
  induction h with
  | nil => rfl
  | @keep o c t t' _ ih => exact congrArg (blurChar c :: ·) ih
  | word _ hw hw' _ hlength _ ih =>
    rw [blur_append, blur_append, blur_word hw, blur_word hw', hlength, ih]

theorem length_eq : t'.length = t.length := by
  have := congrArg List.length h.blur_eq
  rwa [blur, blur, List.length_map, List.length_map] at this

/-- Where one text falls apart, but not inside a word, the other falls apart too. -/
theorem exists_cut {a b : Text} (hab : t = a ++ b)
    (hcut : (∀ p q, words p q → ¬(p < o + size a ∧ o + size a < q)) ∨
      ∀ c ∈ a.getLast?, isWordChar c = false) :
    ∃ a' b', t' = a' ++ b' ∧ Respells words o a a' ∧ Respells words (o + size a) b b' := by
  induction h generalizing a with
  | nil =>
    obtain ⟨rfl, rfl⟩ := List.nil_eq_append_iff.1 hab
    exact ⟨[], [], rfl, .nil, .nil⟩
  | @keep o c t t' ht ih =>
    rcases a with _ | ⟨d, a⟩
    · obtain rfl : c :: t = b := hab
      exact ⟨[], c :: t', rfl, .nil, .keep ht⟩
    · obtain ⟨rfl, rfl⟩ := List.cons.inj hab
      have hsize : o + size (c :: a) = o + c.utf8Size + size a := by
        rw [size_cons, Nat.add_assoc]
      rw [hsize] at hcut ⊢
      obtain ⟨a', b', rfl, ha, hb⟩ := ih rfl (hcut.imp_right fun hlast d hd => hlast d (by
        cases a with
        | nil => cases hd
        | cons e a => simpa using hd))
      exact ⟨c :: a', b', rfl, .keep ha, hb⟩
  | @word o w w' t t' hword hw hw' hsize hlength ht ih =>
    by_cases hle : size w ≤ size a
    · obtain ⟨m, rfl, rfl⟩ := exists_between hab hle
      have hadd : o + size (w ++ m) = o + size w + size m := by
        rw [size_append, Nat.add_assoc]
      rw [hadd] at hcut ⊢
      obtain ⟨a', b', rfl, ha, hb⟩ := ih rfl (hcut.imp_right fun hlast d hd => hlast d (by
        rw [List.getLast?_append, Option.mem_def.1 hd]
        rfl))
      exact ⟨w' ++ a', b', (List.append_assoc ..).symm, .word hword hw hw' hsize hlength ha, hb⟩
    · obtain ⟨m, rfl, rfl⟩ := exists_between hab.symm (by omega)
      rcases List.eq_nil_or_concat a with rfl | ⟨a, c, rfl⟩
      · exact ⟨[], w' ++ t', rfl, .nil, .word hword hw hw' hsize hlength ht⟩
      · -- the cut would be inside the word
        exfalso
        rw [List.concat_eq_append] at hcut hle hw hword
        rcases hcut with hcut | hlast
        · have hpos := size_pos (t := a ++ [c]) (by simp)
          exact hcut _ _ hword ⟨by omega, by omega⟩
        · have := hw.2 c (by simp)
          rw [hlast c (by simp)] at this
          cases this

omit h in
theorem exists_cut_outside (h : Respells words 0 t t') {a b : Text} (hab : t = a ++ b)
    (hcut : ∀ p q, words p q → ¬(p < size a ∧ size a < q)) :
    ∃ a' b', t' = a' ++ b' ∧ Respells words 0 a a' ∧ Respells words (size a) b b' := by
  have hparts := h.exists_cut hab (.inl (by simpa using hcut))
  rwa [Nat.zero_add] at hparts

theorem blur_lastLine_eq : blur (Lexeme.lastLine t') = blur (Lexeme.lastLine t) := by
  rw [← lastLine_blur, h.blur_eq, lastLine_blur]

/-- The last lines have the same size. -/
theorem size_lastLine_eq : size (Lexeme.lastLine t') = size (Lexeme.lastLine t) := by
  obtain ⟨u, v, huv, -, hv⟩ := h.exists_cut (earlierLines_append_lastLine t).symm
    (.inr fun c hc => isWordChar_of_isTerminator (endsLine_earlierLines t c hc))
  have hlength := congrArg List.length h.blur_lastLine_eq
  rw [blur, blur, List.length_map, List.length_map, ← hv.length_eq] at hlength
  rw [← hv.size_eq, (List.append_inj' ((earlierLines_append_lastLine t').trans huv) hlength).2]

/-! ## Lines -/

theorem startsFrom_eq : Lines.startsFrom o t' = Lines.startsFrom o t := by
  induction h with
  | nil => rfl
  | @keep o c t t' ht ih =>
    have hlf : isWordChar '\n' = false := by decide
    have hhead : t'.head? = some '\n' ↔ t.head? = some '\n' := by
      rw [← head?_blur_eq hlf, ht.blur_eq, head?_blur_eq hlf]
    by_cases hp : PartsPair [c] t
    · obtain ⟨hc, hlfeed⟩ := hp
      obtain rfl : c = '\r' := Option.some.inj hc
      obtain ⟨u, rfl⟩ := List.head?_eq_some_iff.1 hlfeed
      obtain ⟨u', rfl⟩ := List.head?_eq_some_iff.1 (hhead.2 rfl)
      have hpair : ∀ v, ¬PartsPair ['\n'] v := fun v hv => by cases hv.1
      rw [Lines.startsFrom_cons (hpair u), Lines.startsFrom_cons (hpair u')] at ih
      exact ih
    · rw [Lines.startsFrom_cons hp, Lines.startsFrom_cons (fun hp' => hp ⟨hp'.1, hhead.1 hp'.2⟩), ih]
  | @word o w w' t t' hword hw hw' hsize hlength ht ih =>
    have hnil : ∀ v : Text, v.Flat → Lines.startsFrom o v = [] := fun v hv => by
      rw [← List.length_eq_zero_iff, Lines.length_startsFrom, hv.terminators_eq]
      rfl
    rw [Lines.startsFrom_append hw'.flat.not_partsPair_left,
      Lines.startsFrom_append hw.flat.not_partsPair_left, hnil w hw.flat, hnil w' hw'.flat, hsize, ih]

end Respells

end Text

namespace Lines

open Text

variable {words : Nat → Nat → Prop} {t t' : Text} (h : Respells words 0 t t')
include h

/-- The lines start at the same offsets. -/
theorem of_respelled : of t' = of t := by
  rw [of, of, h.startsFrom_eq]

theorem lineStart_respelled (line : Nat) : (of t').lineStart t' line = (of t).lineStart t line := by
  rw [lineStart, lineStart, of_respelled h, h.size_eq]

/-- The lines end at the same offsets. -/
theorem lineEnd_respelled (line : Nat) : (of t').lineEnd t' line = (of t).lineEnd t line := by
  rw [lineEnd, lineEnd, of_respelled h]
  cases hnext : (of t).starts[line]? with
  | none => exact h.size_eq
  | some next =>
    obtain ⟨x, y, rfl, rfl, hend⟩ := exists_cut_of_start hnext
    obtain ⟨x', y', rfl, hx, -⟩ := h.exists_cut rfl (.inr fun c hc =>
      isWordChar_of_isTerminator (hend c hc))
    have hsplit : split? (x' ++ y') (size x) = some (x', y') := by
      rw [← hx.size_eq, split?_append]
    simp only [split?_append, hsplit]
    rw [← terminatorSize_blur x', hx.blur_eq, terminatorSize_blur]

variable {a b : Text} (hab : t = a ++ b)
include hab

/-- A cut that is not inside a word is in the same column. -/
theorem column_respelled (hcut : ∀ p q, words p q → ¬(p < size a ∧ size a < q)) :
    (of t').column t' (size a) = (of t).column t (size a) := by
  subst hab
  obtain ⟨a', b', rfl, ha, -⟩ := h.exists_cut_outside rfl hcut
  obtain ⟨u, v, rfl, hend, hu⟩ := exists_lineStart a b
  obtain ⟨u', v', rfl, hu', hv⟩ := ha.exists_cut rfl (.inr fun c hc =>
    isWordChar_of_isTerminator (hend c hc))
  have hline := lineStart_respelled h ((of (u ++ v ++ b)).lineOf (size (u ++ v)))
  have hsplit : split (u' ++ v' ++ b') (size (u ++ v)) = .ok (u' ++ v', b') := by
    rw [← ha.size_eq, split_append]
  have hsplit' : split (u' ++ v') (size u) = .ok (u', v') := by
    rw [← hu'.size_eq, split_append]
  rw [column, column, of_respelled h]
  rw [of_respelled h] at hline
  simp only [hline, hsplit, split_append, ← hu, hsplit', bind, Except.bind, pure, Except.pure, hv.length_eq]

theorem lineColumn_respelled (hcut : ∀ p q, words p q → ¬(p < size a ∧ size a < q)) :
    (of t').lineColumn t' (size a) = (of t).lineColumn t (size a) := by
  rw [lineColumn, lineColumn, column_respelled h hab hcut, of_respelled h]

end Lines

end Indentation
