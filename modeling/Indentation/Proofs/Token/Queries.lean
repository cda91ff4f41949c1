import Indentation.Proofs.Token.Order

/-!
# Queries and plain scans

What a stream answers about its tokens is what a scan of all of them finds, and stepping from token to
token visits the tokens between two others.
-/

namespace Indentation.TokenStream

variable {s : TokenStream}

/-! ## The closest tokens -/

/-- The closest token before another that is no comment. -/
structure ClosestBefore (s : TokenStream) (t n : Nat) : Prop where
  lt : n < t
  code : s.isComment n = false
  between : ∀ k, n < k → k < t → s.isComment k = true

/-- The closest token after another that is no comment. -/
structure ClosestAfter (s : TokenStream) (t n : Nat) : Prop where
  lt : t < n
  lt_size : n < s.size
  code : s.isComment n = false
  between : ∀ k, t < k → k < n → s.isComment k = true

theorem prevCode?_eq_some_iff {t n : Nat} : s.prevCode? t = some n ↔ s.ClosestBefore t n := by
  refine ⟨fun h => ?_, fun h => ?_⟩
  · obtain ⟨hlt, hcode, hbetween⟩ := prevCode?_some h
    exact ⟨hlt, hcode, hbetween⟩
  · induction t with
    | zero => exact absurd h.lt (Nat.not_lt_zero n)
    | succ t ih =>
      rw [prevCode?]
      rcases Nat.lt_succ_iff_lt_or_eq.1 h.lt with hlt | rfl
      · rw [if_pos (h.between t hlt (Nat.lt_succ_self t))]
        exact ih ⟨hlt, h.code, fun k hnk hkt => h.between k hnk (Nat.lt_succ_of_lt hkt)⟩
      · rw [h.code]
        rfl

theorem isComment_of_prevCode? {t k : Nat} (h : s.prevCode? t = none) (hk : k < t) :
    s.isComment k = true := by
  induction t with
  | zero => exact absurd hk (Nat.not_lt_zero k)
  | succ t ih =>
    rw [prevCode?] at h
    split at h
    · next hc =>
      rcases Nat.lt_succ_iff_lt_or_eq.1 hk with hk | rfl
      · exact ih h hk
      · exact hc
    · cases h

/-- Behind a comment the search goes on from the token before it, or from the start of the text. -/
theorem nextCodeFrom?_iff_closestAfter {start t n : Nat} (hle : start ≤ t + 1)
    (hcomments : ∀ k, start ≤ k → k ≤ t → s.isComment k = true) :
    s.nextCodeFrom? start = some n ↔ s.ClosestAfter t n := by
  have hsome : ∀ n, s.nextCodeFrom? start = some n → s.ClosestAfter t n := by
    intro n h
    obtain ⟨hn, hsize, hcode, hbetween⟩ := nextCodeFrom?_some h
    refine ⟨?_, hsize, hcode, fun k hk hkn => hbetween k (by omega) hkn⟩
    by_contra hge
    rw [hcomments n hn (by omega)] at hcode
    cases hcode
  refine ⟨hsome n, fun h => ?_⟩
  have := h.lt
  obtain ⟨m, hm⟩ := exists_nextCodeFrom? (i := start) (by omega) h.lt_size h.code
  have hm' := hsome m hm
  rw [hm]
  rcases Nat.lt_trichotomy m n with hlt | rfl | hlt
  · have := h.between m hm'.lt hlt
    rw [hm'.code] at this
    cases this
  · rfl
  · have := hm'.between n h.lt hlt
    rw [h.code] at this
    cases this

theorem nextCode?_eq_some_iff {t n : Nat} : s.nextCode? t = some n ↔ s.ClosestAfter t n :=
  nextCodeFrom?_iff_closestAfter le_rfl fun k hk hkt => by omega

/-- Of two tokens of a program the one comes next just if the other came before it. -/
theorem nextCode?_iff_prevCode? {i j : Nat} (hj : j < s.size) (hi : s.isComment i = false)
    (hjc : s.isComment j = false) : s.nextCode? i = some j ↔ s.prevCode? j = some i := by
  rw [nextCode?_eq_some_iff, prevCode?_eq_some_iff]
  exact ⟨fun h => ⟨h.lt, hi, h.between⟩, fun h => ⟨h.lt, hj, hjc, h.between⟩⟩

/-! ## Tokens between two others -/

/-- The tokens met on the way from one token to the next up to a limit. -/
def met (s : TokenStream) (limit id : Nat) : List Nat :=
  match h : s.nextCode? id with
  | none => []
  | some next =>
    if next < limit then
      have := nextCode?_some h
      next :: met s limit next
    else []
termination_by s.size - id

theorem codeBetween_eq_nil {after before : Nat}
    (h : ∀ k, after < k → k < before → s.isComment k = true) : s.codeBetween after before = [] := by
  rw [codeBetween, List.filter_eq_nil_iff]
  intro k hk
  have hk := List.mem_range'_1.1 hk
  simp [h k (by omega) (by omega)]

theorem codeBetween_eq_cons {after before next : Nat} (h : s.ClosestAfter after next)
    (hlt : next < before) : s.codeBetween after before = next :: s.codeBetween next before := by
  have hafter := h.lt
  have hcut : List.range' (after + 1) (before - (after + 1)) =
      List.range' (after + 1) (next - (after + 1)) ++ next :: List.range' (next + 1) (before - (next + 1)) := by
    rw [show next :: List.range' (next + 1) (before - (next + 1)) =
        List.range' (after + 1 + (next - (after + 1))) (before - (next + 1) + 1) by
      rw [List.range'_succ, Nat.add_sub_cancel' hafter]]
    rw [List.range'_append_1]
    congr 1
    omega
  have hcomments : (List.range' (after + 1) (next - (after + 1))).filter (fun id => !s.isComment id) =
      [] := codeBetween_eq_nil h.between
  rw [codeBetween, hcut, List.filter_append, hcomments, List.nil_append,
    List.filter_cons_of_pos (by simp [h.code])]
  rfl

/-- Between two tokens are those that are met on the way from the one to the other. -/
theorem codeBetween_eq_met {after before : Nat} (hbefore : before ≤ s.size) :
    s.codeBetween after before = s.met before after := by
  fun_induction met s before after with
  | case1 after hnone =>
    refine codeBetween_eq_nil fun k hk hkb => ?_
    by_contra hc
    obtain ⟨n, hn⟩ := exists_nextCodeFrom? (i := after + 1) hk (Nat.lt_of_lt_of_le hkb hbefore)
      (by simpa using hc)
    rw [nextCode?, hn] at hnone
    cases hnone
  | case2 after next hnext hlt this ih =>
    rw [codeBetween_eq_cons (nextCode?_eq_some_iff.1 hnext) hlt, ih]
  | case3 after next hnext hge =>
    refine codeBetween_eq_nil fun k hk hkb => ?_
    exact (nextCode?_eq_some_iff.1 hnext).between k hk (by omega)

/-! ## Tokens of a range -/

/-- All tokens that are no comments and lie wholly in a range. -/
def codesIn (s : TokenStream) (r : Range) : List Nat :=
  s.codeIds.filter fun i => r.start ≤ (s.token i).start && (s.token i).stop ≤ r.stop

theorem mem_codesIn {r : Range} {i : Nat} : i ∈ s.codesIn r ↔ s.CodeIn r i := by
  simp only [codesIn, codeIds, ids, List.mem_filter, List.mem_range, Bool.not_eq_true',
    Bool.and_eq_true, decide_eq_true_eq]
  exact ⟨fun ⟨⟨hsize, hcode⟩, hstart, hstop⟩ => ⟨hsize, hcode, hstart, hstop⟩,
    fun h => ⟨⟨h.lt_size, h.code⟩, h.start_le, h.le_stop⟩⟩

variable (h : s.Ordered)
include h

theorem firstCodeIn?_eq_min? (r : Range) : s.firstCodeIn? r = (s.codesIn r).min? := by
  ext i
  simp only [firstCodeIn?_eq_some_iff h, List.min?_eq_some_iff, mem_codesIn]

theorem lastCodeIn?_eq_max? (r : Range) : s.lastCodeIn? r = (s.codesIn r).max? := by
  ext i
  simp only [lastCodeIn?_eq_some_iff h, List.max?_eq_some_iff, mem_codesIn]

/-- There is a span just if there is a token to be in it. -/
theorem spanOf?_isSome_iff (r : Range) :
    (∃ span, s.spanOf? r = some span) ↔ ∃ i, s.CodeIn r i := by
  constructor
  · rintro ⟨span, hspan⟩
    exact ⟨span.first, ((firstCodeIn?_eq_some_iff h).1 (spanOf?_eq_some_iff.1 hspan).1).1⟩
  · rintro ⟨i, hi⟩
    obtain ⟨first, hfirst, hle⟩ := firstCodeIn?_isSome h hi
    obtain ⟨last, hlast, hge⟩ := lastCodeIn?_isSome h hi
    exact ⟨⟨first, last⟩, spanOf?_eq_some_iff.2 ⟨hfirst, hlast, Nat.le_trans hle hge⟩⟩

/-- Each query is a plain scan of the tokens: the ends of a range are the least and the greatest of
those that lie in it, if any do, an offset has the one token that starts there, steps forward and
backward undo each other, and between two tokens are those met stepping from the one to the other. -/
theorem queries_eq_scans :
    (∀ r, s.firstCodeIn? r = (s.codesIn r).min? ∧ s.lastCodeIn? r = (s.codesIn r).max? ∧
      ((∃ span, s.spanOf? r = some span) ↔ ∃ i, s.CodeIn r i) ∧
      ∀ span, s.spanOf? r = some span → s.firstCodeIn? r = some span.first ∧
        s.lastCodeIn? r = some span.last ∧ span.first ≤ span.last) ∧
    (∀ o, (∀ i, s.startingAt? o = some i ↔ i < s.size ∧ (s.token i).start = o) ∧
      ∀ i < s.size, ∀ j < s.size, (s.token i).start = o → (s.token j).start = o → i = j) ∧
    (∀ i < s.size, ∀ j < s.size, s.isComment i = false → s.isComment j = false →
      (s.nextCode? i = some j ↔ s.prevCode? j = some i)) ∧
    ∀ after < s.size, ∀ before < s.size, s.codeBetween after before = s.met before after := by
  refine ⟨fun r => ⟨firstCodeIn?_eq_min? h r, lastCodeIn?_eq_max? h r, spanOf?_isSome_iff h r,
    fun span => spanOf?_eq_some_iff.1⟩, fun o => ⟨fun i => startingAt?_eq_some_iff h, ?_⟩, ?_, ?_⟩
  · rintro i hi j hj rfl heq
    exact h.eq_of_start_eq hi hj heq.symm
  · exact fun i _ j hj hi hjc => nextCode?_iff_prevCode? hj hi hjc
  · exact fun after _ before hbefore => codeBetween_eq_met (Nat.le_of_lt hbefore)

omit h

/-! ## A comment between two names -/

def commentedStream : TokenStream where
  source := "a/**/b;".toList
  tokens := #[
    ⟨.identifier, (Range.point 0).cover (.point 1), ['a'], [], 1, 1, 0⟩,
    ⟨.blockComment, (Range.point 1).cover (.point 5), "/**/".toList, ['a'], 1, 1, 1⟩,
    ⟨.identifier, (Range.point 5).cover (.point 6), ['b'], "a/**/".toList, 1, 1, 5⟩,
    ⟨.punctuator, (Range.point 6).cover (.point 7), [';'], "a/**/b".toList, 1, 1, 6⟩]
  leaders := #[none, some 0, none]

theorem ordered_commentedStream : commentedStream.Ordered where
  start_lt_stop := by decide
  stop_le_start i j hij hj := by
    have hall : ∀ j < commentedStream.size, ∀ i < j,
        (commentedStream.token i).stop ≤ (commentedStream.token j).start := by decide
    exact hall j hj i hij

/-- The comment is passed over, and a range with nothing else in it has no span. -/
theorem queries_eq_scans_commentedStream :
    commentedStream.firstCodeIn? ((Range.point 0).cover (.point 6)) = some 0 ∧
      commentedStream.lastCodeIn? ((Range.point 0).cover (.point 6)) = some 2 ∧
      (¬∃ span, commentedStream.spanOf? ((Range.point 1).cover (.point 5)) = some span) ∧
      commentedStream.startingAt? 5 = some 2 ∧ commentedStream.prevCode? 2 = some 0 ∧
      commentedStream.codeBetween 0 3 = [2] := by
  obtain ⟨hranges, hstarts, hsteps, hbetween⟩ := queries_eq_scans ordered_commentedStream
  have hnext : commentedStream.nextCode? 0 = some 2 := by with_unfolding_all decide
  refine ⟨(hranges _).1.trans (by decide), (hranges _).2.1.trans (by decide), ?_,
    ((hstarts 5).1 2).2 (by decide), (hsteps 0 (by decide) 2 (by decide) (by decide) (by decide)).1 hnext, ?_⟩
  · rw [(hranges _).2.2.1]
    rintro ⟨i, hi⟩
    have hnone : commentedStream.codesIn ((Range.point 1).cover (.point 5)) = [] := by decide
    rw [← mem_codesIn, hnone] at hi
    cases hi
  · rw [hbetween 0 (by decide) 3 (by decide)]
    with_unfolding_all decide

end Indentation.TokenStream
