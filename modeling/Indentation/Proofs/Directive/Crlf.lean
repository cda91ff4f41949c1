import Indentation.Directive.Basic
import Indentation.Proofs.Text.Crlf
import Mathlib.Data.List.Induction

/-!
# Directives in texts with CR LF

The words of a directive and its delimiters hold no line ends, and what stands between them is white
space.  So a comment is the same directive with CR LF as with LF.
-/

namespace Indentation

namespace Text

theorem Flat.ne_of_mem {t : Text} (h : t.Flat) {c : Char} (hc : c ∈ t) : c ≠ '\n' ∧ c ≠ '\r' := by
  rw [← not_or, ← isTerminator_iff, h c hc]
  exact Bool.false_ne_true

theorem after?_eq_some_iff {word t rest : Text} : after? word t = some rest ↔ t = word ++ rest := by
  induction word generalizing t with
  | nil => simp [after?]
  | cons c word ih =>
    cases t with
    | nil => simp [after?]
    | cons d t =>
      by_cases h : c = d
      · simp [after?, h, ih]
      · simp [after?, h, Ne.symm h]

theorem before?_eq_some_iff {ending t body : Text} :
    before? ending t = some body ↔ t = body ++ ending := by
  rw [before?, Option.map_eq_some_iff]
  simp only [after?_eq_some_iff]
  constructor
  · rintro ⟨rest, hrest, rfl⟩
    rw [← List.reverse_reverse t, hrest, List.reverse_append, List.reverse_reverse]
  · rintro rfl
    exact ⟨body.reverse, List.reverse_append, List.reverse_reverse body⟩

theorem after?_crlf {word : Text} (h : word.Flat) (t : Text) :
    after? word (crlf t) = (after? word t).map crlf := by
  induction word generalizing t with
  | nil => simp [after?]
  | cons d word ih =>
    have hd := h.ne_of_mem List.mem_cons_self
    have ih := ih fun e he => h e (List.mem_cons_of_mem d he)
    cases t with
    | nil => rfl
    | cons c t =>
      by_cases hc : c = '\n'
      · rw [hc, crlf_cons_lf, after?, after?, if_neg hd.1, if_neg hd.2]
        rfl
      · rw [crlf_cons_of_ne hc, after?, after?]
        split
        · exact ih t
        · rfl

theorem reverse_crlf_concat_of_ne {c : Char} (h : c ≠ '\n') (t : Text) :
    (crlf (t ++ [c])).reverse = c :: (crlf t).reverse := by
  rw [crlf_append, crlf_cons_of_ne h, List.reverse_append]
  rfl

theorem reverse_crlf_concat_lf (t : Text) :
    (crlf (t ++ ['\n'])).reverse = '\n' :: '\r' :: (crlf t).reverse := by
  rw [crlf_append, List.reverse_append]
  rfl

theorem before?_crlf {word : Text} (h : word.Flat) (t : Text) :
    before? word (crlf t) = (before? word t).map crlf := by
  have hafter : ∀ w : Text, w.Flat → ∀ t : Text, after? w (crlf t).reverse =
      (after? w t.reverse).map fun r => (crlf r.reverse).reverse := by
    intro w hw
    induction w with
    | nil => simp [after?]
    | cons d w ih =>
      have hd := hw.ne_of_mem List.mem_cons_self
      have ih := ih fun e he => hw e (List.mem_cons_of_mem d he)
      intro t
      rcases List.eq_nil_or_concat t with rfl | ⟨t, c, rfl⟩
      · rfl
      · rw [List.concat_eq_append, List.reverse_append]
        by_cases hc : c = '\n'
        · rw [hc, reverse_crlf_concat_lf, after?, if_neg hd.1]
          simp [after?, hd.1]
        · rw [reverse_crlf_concat_of_ne hc, List.reverse_singleton, List.singleton_append, after?, after?]
          split
          · exact ih t
          · rfl
  rw [before?, before?, hafter _ (fun c hc => h c (List.mem_reverse.1 hc)), Option.map_map,
    Option.map_map]
  congr 1
  funext r
  simp

/-! ## White space -/

theorem isBlank_of_crlf {c d : Char} (h : d ∈ crlf [c]) : isBlank d = isBlank c := by
  by_cases hc : c = '\n'
  · subst hc
    rcases List.mem_pair.1 h with rfl | rfl <;> rfl
  · rw [crlf_cons_of_ne hc, crlf_nil, List.mem_singleton] at h
    rw [h]

theorem dropWhile_isBlank_crlf (t : Text) :
    (crlf t).dropWhile isBlank = crlf (t.dropWhile isBlank) := by
  induction t with
  | nil => rfl
  | cons c t ih =>
    rw [← List.singleton_append, crlf_append]
    cases hc : isBlank c with
    | true =>
      rw [List.dropWhile_append_of_pos fun d hd => (isBlank_of_crlf hd).trans hc, ih,
        List.singleton_append, List.dropWhile_cons_of_pos hc]
    | false =>
      have hne : c ≠ '\n' := by
        rintro rfl
        cases hc
      rw [crlf_cons_of_ne hne, crlf_nil, List.singleton_append, List.singleton_append,
        List.dropWhile_cons_of_neg (by simp [hc]), List.dropWhile_cons_of_neg (by simp [hc]),
        crlf_cons_of_ne hne]

theorem reverse_dropWhile_isBlank_crlf (t : Text) :
    ((crlf t).reverse.dropWhile isBlank).reverse = crlf (t.reverse.dropWhile isBlank).reverse := by
  induction t using List.reverseRecOn with
  | nil => rfl
  | append_singleton t c ih =>
    rw [crlf_append, List.reverse_append, List.reverse_append]
    cases hc : isBlank c with
    | true =>
      rw [List.dropWhile_append_of_pos fun d hd => (isBlank_of_crlf (List.mem_reverse.1 hd)).trans hc, ih,
        List.reverse_singleton, List.singleton_append, List.dropWhile_cons_of_pos hc]
    | false =>
      have hne : c ≠ '\n' := by
        rintro rfl
        cases hc
      rw [crlf_cons_of_ne hne, crlf_nil, List.reverse_singleton, List.singleton_append,
        List.singleton_append, List.dropWhile_cons_of_neg (by simp [hc]),
        List.dropWhile_cons_of_neg (by simp [hc]), List.reverse_cons, List.reverse_cons,
        List.reverse_reverse, List.reverse_reverse, crlf_append, crlf_cons_of_ne hne, crlf_nil]

theorem trim_crlf (t : Text) : trim (crlf t) = crlf (trim t) := by
  rw [trim, trim, dropWhile_isBlank_crlf, reverse_dropWhile_isBlank_crlf]

end Text

/-! ## Comments -/

namespace Directive

open Text

theorem flat_keywords : ∀ keyword ∈ keywords, keyword.1.Flat := by decide +kernel

theorem body?_crlf (kind : TokenKind) (comment : Text) :
    body? kind (crlf comment) = (body? kind comment).map crlf := by
  cases kind with
  | lineComment => exact after?_crlf (by decide) comment
  | blockComment =>
    rw [body?, body?, after?_crlf (by decide)]
    cases after? ['/', '*'] comment with
    | none => rfl
    | some rest => exact before?_crlf (by decide) rest
  | _ => rfl

/-- The names stand on one line. -/
theorem namesAfter?_crlf (rest : Text) : namesAfter? (crlf rest) = namesAfter? rest := by
  cases rest with
  | nil => rfl
  | cons c rest =>
    obtain ⟨d, rest', hcrlf⟩ : ∃ d rest', crlf (c :: rest) = d :: rest' :=
      List.exists_cons_of_ne_nil (by simp)
    have hblank : isBlank d = isBlank c := by
      apply isBlank_of_crlf
      rw [← List.singleton_append, crlf_append] at hcrlf
      have hne : crlf [c] ≠ [] := by simp
      have hhead := congrArg List.head? hcrlf
      rw [List.head?_append_of_ne_nil _ hne] at hhead
      exact List.mem_of_head? hhead
    have hnames : namesAfter? (crlf (c :: rest)) =
        if isBlank d && !(trim (crlf (c :: rest))).contains '\n'
          then some (names (trim (crlf (c :: rest)))) else none := by
      rw [hcrlf]
      rfl
    rw [hnames, hblank, trim_crlf, namesAfter?]
    by_cases hmem : '\n' ∈ trim (c :: rest)
    · simp [hmem, mem_crlf hmem]
    · rw [crlf_eq_self hmem]

theorem ofKeyword?_crlf {keyword : Text × Action} (h : keyword.1.Flat) (body : Text) :
    ofKeyword? (crlf body) keyword = ofKeyword? body keyword := by
  rw [ofKeyword?, ofKeyword?, after?_crlf h]
  cases after? keyword.1 body with
  | none => rfl
  | some rest =>
    simp only [Option.map_some, bind, Option.bind_some, namesAfter?_crlf]

theorem findSome?_crlf {words : List (Text × Action)} (h : ∀ keyword ∈ words, keyword.1.Flat)
    (body : Text) : words.findSome? (ofKeyword? (crlf body)) = words.findSome? (ofKeyword? body) := by
  induction words with
  | nil => rfl
  | cons keyword words ih =>
    rw [List.findSome?_cons, List.findSome?_cons, ofKeyword?_crlf (h keyword List.mem_cons_self),
      ih fun other hother => h other (List.mem_cons_of_mem keyword hother)]

/-- A comment is the same directive with CR LF. -/
theorem ofComment?_crlf (kind : TokenKind) (comment : Text) :
    ofComment? kind (crlf comment) = ofComment? kind comment := by
  rw [ofComment?, ofComment?, body?_crlf]
  cases body? kind comment with
  | none => rfl
  | some body =>
    simp only [Option.map_some, bind, Option.bind_some, dropWhile_isBlank_crlf,
      findSome?_crlf flat_keywords]

end Directive

end Indentation
